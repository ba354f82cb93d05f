import Verax.JoinOrder.DistributedRows

/-!
# Plans the enumeration distributes

On several workers, every plan that the enumerator records has its inputs where its joins need them
(`rules_laid`), so that what it computes on all tasks is what it may compute on one.
-/

set_option linter.unusedSectionVars false

namespace Verax.JoinOrder

open Verax.Lib Verax.Lib.Spreads Verax.Lib.StateExcept Enumerator

variable {F σ : Type} [Add F] [BEq F] [LT F] [DecidableLT F]

variable {env : Env F σ} {k : KeyFactory} {κ τ : Type} {M : Meaning κ τ} [DecidableEq κ]

/-- A plan of the memo: its inputs are where it needs them, and its rows are not replicated by
key. -/
def Distributes (env : Env F σ) (op : MemoOp F) : Prop :=
  Laid env op ∧ op.outputPartitioning.replicateNullsAndAny = false

/-- A plan that may stand for a cover as an input of a join. -/
def Stands (env : Env F σ) (S : RelationSet) (op : MemoOp F) : Prop := op.cover = S ∧ Laid env op

lemma eq_of_sameClassAs {p q : Partitioning} (h : p.sameClassAs q = true) : p = q := by
  simp only [Partitioning.sameClassAs, Bool.and_eq_true, decide_eq_true_eq] at h
  obtain ⟨⟨⟨hkind, htype⟩, hreplicate⟩, hkeys⟩ := h
  cases p
  cases q
  simp_all

/-! ### Providing inputs -/

section provide

variable {st : State F σ} (hst : Holds (Distributes env) st) {S : RelationSet} {op : MemoOp F}
include hst

/-- The plan for a partitioning has it. -/
lemma bestOnPartitioning_laid {p : Partitioning} (hkeys : KeysRead env.graph S p.keys)
    (h : bestOnPartitioning env st S p = some op) :
    Stands env S op ∧ op.outputPartitioning = p := by
  unfold bestOnPartitioning at h
  split at h
  · cases h
  · rename_i plan cost hbest
    obtain ⟨hcover, hlaid, hplain⟩ := hst S plan (PlanSet.best_mem hbest).1
    split at h
    · rename_i hsame
      obtain rfl := Option.some.inj h
      exact ⟨⟨hcover, hlaid⟩, eq_of_sameClassAs hsame⟩
    · split at h
      · cases h
      · rename_i hkind
        obtain rfl := Option.some.inj h
        exact ⟨⟨hcover, .exchange hlaid hkind hplain (hcover ▸ hkeys)⟩, rfl⟩

lemma gatheredSmall_laid {input : MemoOp F} (h : gatheredSmall env st input = some op) :
    Stands env input.cover op ∧ op.outputPartitioning = .gather := by
  unfold gatheredSmall at h
  split at h
  · cases h
  · exact bestOnPartitioning_laid hst (fun key hkey => absurd hkey List.not_mem_nil) h

/-- A replicated input is gathered for a probe that is, and on every task for others. -/
lemma replicatedChild_laid {probe : Partitioning} (h : replicatedChild env st S probe = some op) :
    Stands env S op ∧ op.outputPartitioning.replicateNullsAndAny = false ∧
      (probe.kind = .gather → op.outputPartitioning.kind = .gather) ∧
      (probe.kind ≠ .gather → op.outputPartitioning.kind = .broadcast) := by
  unfold replicatedChild at h
  split at h
  · cases h
  · rename_i base hbase
    obtain ⟨hcover, hlaid, hplain⟩ := hst S base (PlanSet.cheapest_mem hbase)
    split at h
    · cases h
    · split at h
      · rename_i hcond
        simp only [Bool.and_eq_true, decide_eq_true_eq] at hcond
        obtain rfl := Option.some.inj h
        exact ⟨⟨hcover, hlaid⟩, hplain, fun hgather => absurd hgather hcond.2, fun _ => hcond.1⟩
      · rename_i hcond
        simp only [Bool.and_eq_true, decide_eq_true_eq, not_and, not_not] at hcond
        by_cases hprobe : probe.kind = .gather
        · have hkind : Partitioning.gather.kind = .gather := rfl
          rw [Partitioning.globalReplicatedTo, if_pos hprobe, if_pos hkind] at h
          obtain ⟨hstands, hout⟩ :=
            bestOnPartitioning_laid hst (fun key hkey => absurd hkey List.not_mem_nil) h
          rw [hout]
          exact ⟨hstands, rfl, fun _ => rfl, fun hne => absurd hprobe hne⟩
        · rw [Partitioning.globalReplicatedTo, if_neg hprobe,
            if_neg (by simp [Partitioning.globalBroadcast])] at h
          obtain rfl := Option.some.inj h
          exact ⟨⟨hcover, .exchange hlaid (fun hkind => hprobe (hcond hkind)) hplain
            fun key hkey => absurd hkey List.not_mem_nil⟩, rfl,
              fun hgather => absurd hgather hprobe, fun _ => rfl⟩

end provide

/-! ### Partitionings by key positions -/

section positions

/-- The positions of a partitioning's keys among the join keys. -/
lemma partitionedOn_of_from {p : Partitioning} {joinKeys : List Expr} {found : JoinPartitioning}
    (h : JoinPartitioning.from env p joinKeys = some found) :
    PartitionedOn env p joinKeys found.keyPositions ∧ found.partitionType = p.partitionType := by
  unfold JoinPartitioning.from at h
  split at h
  · cases h
  · rename_i hcond
    simp only [Bool.or_eq_true, decide_eq_true_eq, not_or, not_not, Bool.not_eq_true, ne_eq]
      at hcond
    obtain ⟨⟨hkind, -⟩, hplain⟩ := hcond
    obtain ⟨positions, hpositions, rfl⟩ := Option.map_eq_some_iff.mp h
    refine ⟨⟨hkind, hplain, (forall₂_of_mapM_eq_some hpositions).imp fun key i hi => ?_⟩, rfl⟩
    obtain ⟨hlt, hsame, -⟩ := List.findIdx?_eq_some_iff_getElem.mp hi
    exact ⟨joinKeys[i], List.getElem?_eq_getElem hlt, .inr hsame⟩

/-- Every offer says where the keys of its plan's partitioning are among the join keys. -/
lemma from_of_mem_makeOffers {coverKeys : List Expr} {plans : List (MemoOp F)} {offer : Offer F}
    (h : offer ∈ makeOffers env coverKeys plans) :
    JoinPartitioning.from env offer.1.outputPartitioning coverKeys = some offer.2 := by
  have hadd : ∀ (plan : MemoOp F) (offers : List (Offer F)),
      (∀ o ∈ offers, JoinPartitioning.from env o.1.outputPartitioning coverKeys = some o.2) →
      ∀ o ∈ addOffer env coverKeys offers plan,
        JoinPartitioning.from env o.1.outputPartitioning coverKeys = some o.2 := by
    intro plan offers hoffers o ho
    unfold addOffer at ho
    split at ho
    · exact hoffers o ho
    · rename_i partitioning hpartitioning
      split at ho
      · rcases List.mem_append.mp ho with ho | ho
        · exact hoffers o ho
        · rw [List.mem_singleton.mp ho]
          exact hpartitioning
      · rename_i i hi
        obtain ⟨j, hj, rfl⟩ := List.mem_iff_getElem.mp ho
        rw [List.length_modify] at hj
        rw [List.getElem_modify]
        split
        · rcases cheaperOffer_cases (plan, partitioning) offers[j] with heq | heq
          · rw [heq]
            exact hpartitioning
          · rw [heq]
            exact hoffers _ (List.getElem_mem hj)
        · exact hoffers _ (List.getElem_mem hj)
  have hfold : ∀ (rest : List (MemoOp F)) (offers : List (Offer F)),
      (∀ o ∈ offers, JoinPartitioning.from env o.1.outputPartitioning coverKeys = some o.2) →
      ∀ o ∈ rest.foldl (addOffer env coverKeys) offers,
        JoinPartitioning.from env o.1.outputPartitioning coverKeys = some o.2 := by
    intro rest
    induction rest with
    | nil => exact fun offers hoffers => hoffers
    | cons plan rest ih => exact fun offers hoffers => ih _ (hadd plan offers hoffers)
  exact hfold plans [] (fun o ho => absurd ho List.not_mem_nil) offer h

/-- Keys at the positions of other keys. -/
lemma forall₂_correspondingKeys {joinKeys : List Expr} (f : Expr → Expr) :
    ∀ {positions : List ℕ}, (∀ i ∈ positions, i < joinKeys.length) →
      List.Forall₂ (fun key i => ∃ joinKey, (joinKeys.map f)[i]? = some joinKey ∧
        (joinKey = key ∨ env.sameOrEqual joinKey key = true))
        ((positions.filterMap (joinKeys[·]?)).map f) positions
  | [], _ => .nil
  | i :: positions, h => by
    have hi := h i List.mem_cons_self
    rw [List.filterMap_cons, List.getElem?_eq_getElem hi]
    refine .cons ⟨f joinKeys[i], ?_, .inl rfl⟩
      (forall₂_correspondingKeys f fun j hj => h j (List.mem_cons_of_mem _ hj))
    rw [List.getElem?_map, List.getElem?_eq_getElem hi]
    rfl

/-- All keys, at their own positions. -/
lemma partitionedOn_all (keys : List Expr) :
    PartitionedOn env (.hash keys false) keys (List.range keys.length) := by
  refine ⟨rfl, rfl, List.forall₂_iff_get.mpr ⟨by simp [Partitioning.hash], fun i hi hi' => ?_⟩⟩
  refine ⟨keys.get ⟨i, hi⟩, ?_, .inl rfl⟩
  rw [List.get_eq_getElem, List.getElem_range]
  exact List.getElem?_eq_getElem hi

end positions

/-! ### Candidates -/

section candidates

variable (hlaws : Lawful env k M) {shape : Shape} {edge : JoinEdge} {left right : MemoOp F}
  (h : Oriented env.graph edge shape left right)
include hlaws h

omit hlaws h in
/-- Plans that stand for two inputs are joined as these are. -/
lemma Oriented.of_stands (h : Oriented env.graph edge shape left right) {l r : MemoOp F}
    (hl : Stands env left.cover l) (hr : Stands env right.cover r) :
    Oriented env.graph edge shape l r where
  edge_eq := h.edge_eq
  isJoin := h.isJoin
  disjoint := by
    rw [hl.1, hr.1]
    exact h.disjoint
  combined := by
    rw [hl.1, hr.1]
    exact h.combined
  orientation := by
    rw [hl.1, hr.1]
    exact h.orientation
  keyEdges := by
    rw [hl.1, hr.1]
    exact h.keyEdges

omit hlaws h in
lemma orientedKeys_of_cover {l : MemoOp F} (hl : l.cover = left.cover) (edges : List JoinEdge) :
    orientedKeys l edges = orientedKeys left edges := by
  rw [orientedKeys, orientedKeys, hl]

/-- A candidate whose inputs are where it needs them is recorded. -/
lemma addDistributedJoinCandidate_holds {st : State F σ} (hst : Holds (Distributes env) st)
    {l r : MemoOp F} (hl : Stands env left.cover l) (hr : Stands env right.cover r)
    (hmeets : Meets env shape edge (leftCoverKeys env shape edge left)
      (rightCoverKeys env shape edge left right) l.outputPartitioning r.outputPartitioning) :
    Holds (Distributes env) (addDistributedJoinCandidate env shape
      (orientedKeys left (shapeEdges env shape edge)).1
      (orientedKeys left (shapeEdges env shape edge)).2 l r st) := by
  have horiented := h.of_stands hl hr
  have hkeys := orientedKeys_of_cover hl.1 (shapeEdges env shape edge)
  have hmeets : Meets env shape edge (leftCoverKeys env shape edge l)
      (rightCoverKeys env shape edge l r) l.outputPartitioning r.outputPartitioning := by
    rw [leftCoverKeys, rightCoverKeys, hkeys, hl.1, hr.1]
    exact hmeets
  unfold addDistributedJoinCandidate
  rw [← hkeys]
  refine hst.addCandidate horiented.combined.symm fun c => ⟨?_, ?_⟩
  · exact Laid.join (c := c) horiented hl.2 hr.2 hmeets
  · exact (shapePartitioning_follows hlaws horiented hmeets).plain

/-- A candidate over inputs that are provided, if they are. -/
lemma addIfBoth_holds {st : State F σ} (hst : Holds (Distributes env) st)
    {l r : Option (MemoOp F)} (hl : ∀ op, l = some op → Stands env left.cover op)
    (hr : ∀ op, r = some op → Stands env right.cover op)
    (hmeets : ∀ a b, l = some a → r = some b → Meets env shape edge
      (leftCoverKeys env shape edge left) (rightCoverKeys env shape edge left right)
      a.outputPartitioning b.outputPartitioning) :
    Holds (Distributes env) (addIfBoth env shape
      (orientedKeys left (shapeEdges env shape edge)).1
      (orientedKeys left (shapeEdges env shape edge)).2 l r st) := by
  cases l with
  | none => exact hst
  | some a =>
      cases r with
      | none => exact hst
      | some b =>
          exact addDistributedJoinCandidate_holds hlaws h hst (hl a rfl) (hr b rfl)
            (hmeets a b rfl rfl)

variable (hleft : Distributes env left) (hright : Distributes env right)
include hleft hright

lemma addGathered_holds {st : State F σ} (hst : Holds (Distributes env) st) :
    Holds (Distributes env) (addGathered env shape
      (orientedKeys left (shapeEdges env shape edge)).1
      (orientedKeys left (shapeEdges env shape edge)).2 left right st) := by
  have hprovided : ∀ {input op : MemoOp F}, Distributes env input →
      (if input.outputPartitioning.kind = .gather then some input else gatheredSmall env st input) =
        some op → Stands env input.cover op ∧ op.outputPartitioning.kind = .gather := by
    intro input op hinput hop
    split at hop
    · rename_i hkind
      obtain rfl := Option.some.inj hop
      exact ⟨⟨rfl, hinput.1⟩, hkind⟩
    · obtain ⟨hstands, hout⟩ := gatheredSmall_laid hst hop
      rw [hout]
      exact ⟨hstands, rfl⟩
  unfold addGathered
  simp only
  split
  · exact addIfBoth_holds hlaws h hst (fun op hop => (hprovided hleft hop).1)
      (fun op hop => (hprovided hright hop).1)
      fun a b ha hb => .gathered (hprovided hleft ha).2 (hprovided hright hb).2
  · exact hst

lemma addReplicated_holds {st : State F σ} (hst : Holds (Distributes env) st) :
    Holds (Distributes env) (addReplicated env shape
      (orientedKeys left (shapeEdges env shape edge)).1
      (orientedKeys left (shapeEdges env shape edge)).2 left right st) := by
  have hprovided : ∀ {input op : MemoOp F}, Distributes env input →
      (if input.outputPartitioning.kind = .broadcast then some input
        else replicatedChild env st input.cover .globalBroadcast) = some op →
      Stands env input.cover op ∧ op.outputPartitioning.replicateNullsAndAny = false ∧
        op.outputPartitioning.kind = .broadcast := by
    intro input op hinput hop
    split at hop
    · rename_i hkind
      obtain rfl := Option.some.inj hop
      exact ⟨⟨rfl, hinput.1⟩, hinput.2, hkind⟩
    · obtain ⟨hstands, hplain, -, hkind⟩ := replicatedChild_laid hst hop
      exact ⟨hstands, hplain, hkind (by simp [Partitioning.globalBroadcast])⟩
  unfold addReplicated
  simp only
  split
  · have hboth := addIfBoth_holds hlaws h hst (fun op hop => (hprovided hleft hop).1)
      (fun op hop => (hprovided hright hop).1) fun a b ha hb =>
        .replicated (hprovided hleft ha).2.2 (hprovided hright hb).2.2 (hprovided hleft ha).2.1
    split
    · rename_i hcond
      obtain ⟨hleftKind, hrightKind, hprobe, hreversed⟩ := hcond
      exact addDistributedJoinCandidate_holds hlaws h hboth ⟨rfl, hleft.1⟩ ⟨rfl, hright.1⟩
        (.leftReplicated hleftKind hrightKind hright.2 hprobe (Bool.eq_false_iff.mpr hreversed))
    · exact hboth
  · exact hst

lemma addBroadcastBuild_holds {st : State F σ} (hst : Holds (Distributes env) st) :
    Holds (Distributes env) (addBroadcastBuild env shape
      (orientedKeys left (shapeEdges env shape edge)).1
      (orientedKeys left (shapeEdges env shape edge)).2 left right st) := by
  unfold addBroadcastBuild
  split
  · rename_i hcond
    simp only [Bool.and_eq_true, Bool.not_eq_true'] at hcond
    refine addIfBoth_holds hlaws h hst (fun op hop => ?_)
      (fun op hop => (replicatedChild_laid hst hop).1) fun a b ha hb => ?_
    · obtain rfl := Option.some.inj hop
      exact ⟨rfl, hleft.1⟩
    · obtain rfl := Option.some.inj ha
      obtain ⟨-, -, hgather, hbroadcast⟩ := replicatedChild_laid hst hb
      by_cases hkind : left.outputPartitioning.kind = .gather
      · exact .gathered hkind (hgather hkind)
      · by_cases hleftKind : left.outputPartitioning.kind = .broadcast
        · exact .replicated hleftKind (hbroadcast hkind) hleft.2
        · exact .rightReplicated hleftKind hleft.2 (hbroadcast hkind) hcond.1 hcond.2
  · exact hst

omit hleft hright in
/-- The existence side of a null-aware edge is the one that it reaches to the right. -/
lemma existence_sides (haware : edge.nullAware = true) :
    (decide (edge.rightEligibility ⊆ left.cover) = false ∧
        decide (edge.rightEligibility ⊆ right.cover) = true ∧
        (runType shape.joinType shape.reversedAnti = .leftSemiProject ∨
          runType shape.joinType shape.reversedAnti = .anti)) ∨
      (decide (edge.rightEligibility ⊆ left.cover) = true ∧
        decide (edge.rightEligibility ⊆ right.cover) = false ∧
        (runType shape.joinType shape.reversedAnti = .rightSemiProject ∨
          runType shape.joinType shape.reversedAnti = .rightAnti)) := by
  have hedge := hlaws.nullAware edge (List.mem_of_getElem? h.edge_eq) haware
  obtain ⟨v, hv⟩ := edge.rightEligibility_nonempty
  have hleftNot : edge.rightEligibility ⊆ right.cover → ¬ edge.rightEligibility ⊆ left.cover :=
    fun hr hl => Finset.disjoint_left.mp h.disjoint (hl hv) (hr hv)
  have horientation := h.orientation
  generalize shape.joinType = joinType at horientation ⊢
  generalize shape.reversedAnti = reversedAnti at horientation ⊢
  simp only [decide_eq_true_eq, decide_eq_false_iff_not]
  cases horientation with
  | asWritten hl hr => exact .inl ⟨hleftNot hr, hr, hedge.joinType.symm⟩
  | exchanged hl hr hswap =>
      refine .inr ⟨hr, fun hr' => hleftNot hr' hr, .inl ?_⟩
      rcases hedge.joinType with htype | htype
      · rw [htype] at hswap
        cases hswap
      · rw [htype] at hswap
        exact (Option.some.inj hswap).symm
  | reversedAnti hl hr _ => exact .inr ⟨hr, fun hr' => hleftNot hr' hr, .inr rfl⟩

omit h hleft hright in
/-- The plans for a cover that are partitioned on join keys, of which one may be added. -/
lemma partitioningsOn_holds {st : State F σ} (hst : Holds (Distributes env) st) (S : RelationSet)
    (keys : List Expr) : Holds (Distributes env) (partitioningsOn env S keys st).2 ∧
      ∀ op, op ∈ (partitioningsOn env S keys st).1.1 ∨ op ∈ (partitioningsOn env S keys st).1.2 →
        op.cover = S ∧ Distributes env op := by
  have hmem : ∀ {st : State F σ} {ks : List Expr}, Holds (Distributes env) st → ∀ op,
      op ∈ (PlanSet.partitioningsOnSubsets (st.memo S) ks).1 ∨
        op ∈ (PlanSet.partitioningsOnSubsets (st.memo S) ks).2 →
      op.cover = S ∧ Distributes env op := by
    intro st ks hst op hop
    refine hst S op ?_
    rcases hop with hop | hop
    · exact List.mem_of_mem_filter (List.mem_of_mem_filter hop)
    · exact List.mem_of_mem_filter (List.mem_of_mem_filter hop)
  unfold partitioningsOn
  simp only []
  split
  · exact ⟨hst, hmem hst⟩
  · rename_i hcond
    simp only [Bool.or_eq_true, not_or, decide_eq_true_eq, not_not, ne_eq] at hcond
    obtain ⟨id, rfl⟩ := Finset.card_eq_one.mp hcond.1.2
    have hmin : RelationSet.min {id} = id :=
      Finset.mem_singleton.mp (RelationSet.min_mem (Finset.singleton_nonempty id))
    have hpartition : LeafPartition env id (env.groupedPartition id) := .inr rfl
    rw [hmin]
    have hcosted : ∀ c, Holds (Distributes env) { st with costState := c } :=
      fun c => hst.of_memo rfl
    have hst' : Holds (Distributes env) (addPlan env {id}
        (costed env (.leaf ⟨none, none⟩ id (env.groupedPartition id)) st).1
        (costed env (.leaf ⟨none, none⟩ id (env.groupedPartition id)) st).2) :=
      (hcosted _).addPlan rfl ⟨.leaf hpartition, (hlaws.leafKeys id _ hpartition).2⟩
    exact ⟨hst', hmem hst'⟩

/-- A partitioning offered for a cover: its plan, and where its keys are among the join keys. -/
def OfferedFor (env : Env F σ) (S : RelationSet) (coverKeys : List Expr) (offer : Offer F) : Prop :=
  Stands env S offer.1 ∧
    JoinPartitioning.from env offer.1.outputPartitioning coverKeys = some offer.2

omit h hleft hright in
lemma partitioningOffers_holds {st : State F σ} (hst : Holds (Distributes env) st) (op : MemoOp F)
    (keys : List Expr) : Holds (Distributes env) (partitioningOffers env op keys st).2 ∧
      (∀ o ∈ (partitioningOffers env op keys st).1.1,
        OfferedFor env op.cover (keysInCoverSchema env keys op.cover) o) ∧
      ∀ o ∈ (partitioningOffers env op keys st).1.2,
        OfferedFor env op.cover (keysInCoverSchema env keys op.cover) o := by
  obtain ⟨hst', hplans⟩ := partitioningsOn_holds hlaws hst op.cover keys
  refine ⟨hst', fun o ho => ⟨?_, from_of_mem_makeOffers ho⟩, fun o ho =>
    ⟨?_, from_of_mem_makeOffers ho⟩⟩
  · obtain ⟨hcover, hlaid, -⟩ := hplans _ (.inl (makeOffers_mem ho))
    exact ⟨hcover, hlaid⟩
  · obtain ⟨hcover, hlaid, -⟩ := hplans _ (.inr (makeOffers_mem ho))
    exact ⟨hcover, hlaid⟩

omit hlaws h hleft hright in
/-- A side moved to the partitioning that the other keeps. -/
lemma aligned_laid {st : State F σ} (hst : Holds (Distributes env) st) {S T : RelationSet}
    {keptKeys movedKeys : List Expr} {kept : Offer F} {op : MemoOp F}
    (hkept : OfferedFor env T keptKeys kept) (hlength : keptKeys.length = movedKeys.length)
    (hkeys : KeysRead env.graph S (keysInCoverSchema env movedKeys S))
    (hop : aligned env st S movedKeys kept = some op) :
    Stands env S op ∧
      PartitionedOn env op.outputPartitioning (keysInCoverSchema env movedKeys S)
        kept.2.keyPositions ∧
      op.outputPartitioning.partitionType = kept.1.outputPartitioning.partitionType := by
  obtain ⟨hpartitioned, -⟩ := partitionedOn_of_from hkept.2
  have hpositions : ∀ i ∈ kept.2.keyPositions, i < movedKeys.length := by
    intro i hi
    obtain ⟨key, -, joinKey, hjoinKey, -⟩ := exists_of_forall₂ hpartitioned.keys hi
    rw [← hlength]
    exact (List.getElem?_eq_some_iff.mp hjoinKey).1
  have hread : KeysRead env.graph S
      (keysInCoverSchema env (kept.2.correspondingKeys movedKeys) S) := by
    intro key hkey
    obtain ⟨key', hkey', rfl⟩ := List.mem_map.mp hkey
    obtain ⟨i, -, hi⟩ := List.mem_filterMap.mp hkey'
    exact hkeys _ (List.mem_map_of_mem (List.mem_of_getElem? hi))
  have hforall : List.Forall₂ (fun key i => ∃ joinKey,
      (keysInCoverSchema env movedKeys S)[i]? = some joinKey ∧
        (joinKey = key ∨ env.sameOrEqual joinKey key = true))
      (keysInCoverSchema env (kept.2.correspondingKeys movedKeys) S) kept.2.keyPositions :=
    forall₂_correspondingKeys _ hpositions
  unfold aligned at hop
  split at hop
  · rename_i htype
    obtain ⟨hstands, hout⟩ := bestOnPartitioning_laid hst hread hop
    rw [hout, htype]
    exact ⟨hstands, ⟨rfl, rfl, hforall⟩, rfl⟩
  · rename_i t htype
    obtain ⟨hstands, hout⟩ := bestOnPartitioning_laid hst hread hop
    rw [hout, htype]
    exact ⟨hstands, ⟨rfl, rfl, hforall⟩, rfl⟩

lemma addCoPartitionedCandidate_holds {st : State F σ} (hst : Holds (Distributes env) st)
    (haware : edge.nullAware = false) {leftOffers rightOffers : List (Offer F)}
    (hl : ∀ o ∈ leftOffers, OfferedFor env left.cover (leftCoverKeys env shape edge left) o)
    (hr : ∀ o ∈ rightOffers,
      OfferedFor env right.cover (rightCoverKeys env shape edge left right) o) :
    Holds (Distributes env) (addCoPartitionedCandidate env shape
      (orientedKeys left (shapeEdges env shape edge)).1
      (orientedKeys left (shapeEdges env shape edge)).2 left right leftOffers rightOffers st) := by
  have hlength : (leftCoverKeys env shape edge left).length =
      (rightCoverKeys env shape edge left right).length := coverKeys_length
  have hlength' : (orientedKeys left (shapeEdges env shape edge)).1.length =
      (orientedKeys left (shapeEdges env shape edge)).2.length := by
    simpa only [leftCoverKeys, rightCoverKeys, keysInCoverSchema, List.length_map] using hlength
  unfold addCoPartitionedCandidate
  refine foldl_keeps (P := Holds (Distributes env)) (foldl_keeps (P := Holds (Distributes env))
    (foldl_keeps (P := Holds (Distributes env)) hst ?_) ?_) ?_
  · intro st lo hlo hst
    refine foldl_keeps (P := Holds (Distributes env)) hst fun st ro hro hst => ?_
    split
    · rename_i hco
      simp only [JoinPartitioning.coPartitionsWith, Bool.and_eq_true, decide_eq_true_eq] at hco
      obtain ⟨hp, hptype⟩ := partitionedOn_of_from (hl lo hlo).2
      obtain ⟨hq, hqtype⟩ := partitionedOn_of_from (hr ro hro).2
      refine addDistributedJoinCandidate_holds hlaws h hst (hl lo hlo).1 (hr ro hro).1
        (.copartitioned haware hp (hco.1 ▸ hq) (.inr ?_))
      rw [← hptype, ← hqtype]
      exact hco.2
    · exact hst
  · intro st kept hkept hst
    have hread := keysRead_right hlaws h
    have haligned : ∀ op, aligned env st right.cover
        (orientedKeys left (shapeEdges env shape edge)).2 kept = some op → _ :=
      fun op hop => aligned_laid hst (hl kept hkept) (by
        rw [leftCoverKeys, keysInCoverSchema, List.length_map, hlength']) hread hop
    refine addIfBoth_holds hlaws h hst (fun op hop => ?_) (fun op hop => (haligned op hop).1)
      fun a b ha hb => ?_
    · obtain rfl := Option.some.inj hop
      exact (hl kept hkept).1
    · obtain rfl := Option.some.inj ha
      obtain ⟨-, hq, htype⟩ := haligned b hb
      exact .copartitioned haware (partitionedOn_of_from (hl kept hkept).2).1 hq (.inl htype.symm)
  · intro st kept hkept hst
    have hread := keysRead_left hlaws h
    have haligned : ∀ op, aligned env st left.cover
        (orientedKeys left (shapeEdges env shape edge)).1 kept = some op → _ :=
      fun op hop => aligned_laid hst (hr kept hkept) (by
        rw [rightCoverKeys, keysInCoverSchema, List.length_map, hlength']) hread hop
    refine addIfBoth_holds hlaws h hst (fun op hop => (haligned op hop).1) (fun op hop => ?_)
      fun a b ha hb => ?_
    · obtain rfl := Option.some.inj hop
      exact (hr kept hkept).1
    · obtain rfl := Option.some.inj hb
      obtain ⟨-, hp, htype⟩ := haligned a ha
      exact .copartitioned haware hp (partitionedOn_of_from (hr kept hkept).2).1 (.inl htype)

lemma addPartitioned_holds {st : State F σ} (hst : Holds (Distributes env) st) :
    Holds (Distributes env) (addPartitioned env shape edge
      (orientedKeys left (shapeEdges env shape edge)).1
      (orientedKeys left (shapeEdges env shape edge)).2 left right st) := by
  have hreadLeft := keysRead_left hlaws h
  have hreadRight := keysRead_right hlaws h
  unfold addPartitioned
  simp only
  split
  · exact hst
  · split
    · rename_i haware
      rcases existence_sides hlaws h haware with ⟨hl, hr, htype⟩ | ⟨hl, hr, htype⟩
      · rw [hl, hr]
        refine addIfBoth_holds hlaws h hst
          (fun op hop => (bestOnPartitioning_laid hst hreadLeft hop).1)
          (fun op hop => (bestOnPartitioning_laid hst hreadRight hop).1) fun a b ha hb => ?_
        exact .existenceRight haware htype (bestOnPartitioning_laid hst hreadLeft ha).2
          (bestOnPartitioning_laid hst hreadRight hb).2
      · rw [hl, hr]
        refine addIfBoth_holds hlaws h hst
          (fun op hop => (bestOnPartitioning_laid hst hreadLeft hop).1)
          (fun op hop => (bestOnPartitioning_laid hst hreadRight hop).1) fun a b ha hb => ?_
        exact .existenceLeft haware htype (bestOnPartitioning_laid hst hreadLeft ha).2
          (bestOnPartitioning_laid hst hreadRight hb).2
    · rename_i haware
      have haware : edge.nullAware = false := Bool.eq_false_iff.mpr haware
      obtain ⟨hst₁, hlc, hlh⟩ := partitioningOffers_holds hlaws hst left
        (orientedKeys left (shapeEdges env shape edge)).1
      obtain ⟨hst₂, hrc, hrh⟩ := partitioningOffers_holds hlaws hst₁ right
        (orientedKeys left (shapeEdges env shape edge)).2
      have hst₃ := addCoPartitionedCandidate_holds hlaws h hleft hright hst₂ haware hlh hrh
      have hst₄ := addCoPartitionedCandidate_holds hlaws h hleft hright hst₃ haware hlc hrc
      split
      · refine addIfBoth_holds hlaws h hst₄
          (fun op hop => (bestOnPartitioning_laid hst₄ hreadLeft hop).1)
          (fun op hop => (bestOnPartitioning_laid hst₄ hreadRight hop).1) fun a b ha hb => ?_
        rw [(bestOnPartitioning_laid hst₄ hreadLeft ha).2,
          (bestOnPartitioning_laid hst₄ hreadRight hb).2]
        have hq : PartitionedOn env _ _ _ :=
          partitionedOn_all (rightCoverKeys env shape edge left right)
        rw [← coverKeys_length] at hq
        exact .copartitioned haware (partitionedOn_all _) hq (.inl rfl)
      · exact hst₄

/-- **Every candidate considered has its inputs where it needs them.** -/
lemma considerCandidate_holds (hworkers : env.numWorkers ≠ 1) {st : State F σ}
    (hst : Holds (Distributes env) st) :
    Holds (Distributes env) (considerCandidate env shape edge left right st) := by
  unfold considerCandidate
  rw [if_neg hworkers]
  exact addBroadcastBuild_holds hlaws h hleft hright (addPartitioned_holds hlaws h hleft hright
    (addReplicated_holds hlaws h hleft hright (addGathered_holds hlaws h hleft hright hst)))

end candidates

/-! ### The plans of an enumeration -/

/-- On several workers, having its inputs where it needs them is a property that an enumeration
keeps of its plans. -/
lemma rules_distributes (hlaws : Lawful env k M) (hworkers : env.numWorkers ≠ 1) :
    Rules env (Distributes env) where
  leaf c id := by
    have hpartition : LeafPartition env id
        ((env.graph.relations[id]?.map (·.globalPartition)).getD .unspecified) := .inl rfl
    exact ⟨.leaf hpartition, (hlaws.leafKeys id _ hpartition).2⟩
  unnest _ _ _ _ _ _ _ hinput := ⟨.unnest hinput.1 hinput.2, hinput.2⟩
  consider _ _ _ _ _ horiented hleft hright hst :=
    considerCandidate_holds hlaws horiented hleft hright hworkers hst

/-- The plans returned for the components of a graph compute the same on many tasks. -/
theorem enumerateComponents_distributes [Fintype τ] [DecidableEq τ] (hlaws : Lawful env k M)
    (hrows : RowsLawful env k M) (hU : UnnestsDistinct env.graph) (hworkers : env.numWorkers ≠ 1)
    {costState : σ} {enumerationBudget : ℤ} {components : List RelationSet}
    {roots : List (MemoOp F)}
    (hroots : DPhyp.enumerateComponents env costState enumerationBudget components =
      .ok (some roots)) :
    ∀ root ∈ roots, (Runs M env root).Nonempty ∧ ∀ S ∈ Runs M env root,
      ∃ W ∈ Yields M env root, Delivered M root.outputPartitioning W S := by
  intro root hroot
  have hplans := enumerateComponents_holds (rules_distributes hlaws hworkers) hU hroots
  obtain ⟨component, -, -, hlaid, -⟩ := exists_of_forall₂ hplans hroot
  exact ⟨runs_nonempty hlaid, runs_delivered hlaws hrows hlaid⟩

/-! ### Two tasks -/

namespace TwoTasks

open TwoRelations

/-- Columns coalesce, and are in no class. -/
def keys : KeyFactory where
  coalesces
    | .column _, .column _ => true
    | _, _ => false
  canonicalizeCoalesce a b := .other 0 (a.columns ++ b.columns)
  classColumns _ := []
  unnestExpressions _ := []

/-- `TwoRelations.oneWorker` with two workers. -/
def workers : Env ℕ (BySetMap ℕ) :=
  { TwoRelations.oneWorker (some 10) with
    numWorkers := 2
    hashStageTasks := 2
    numPartitions := fun _ => 2 }

/-- The partitioning of a join is that of its inputs as far as it is retained. -/
def twoWorkers : Env ℕ (BySetMap ℕ) :=
  { workers with joinOutputPartitioning := joinOutputPartitioning workers keys }

/-- A row with a value of one column. -/
def row (c : Column) (v : Option ℕ) : Row ℕ := fun d => if d = c then v else none

/-- Rows with keys 1, 2 and NULL, and with keys 2, 3 and NULL. Odd keys are placed on one task, and
others on the other. -/
def meaning : Meaning ℕ Bool where
  eval _ values := values.foldr Option.or none
  truth _ _ := none
  rows
    | 0 => {row (column 0) (some 1), row (column 0) (some 2), row (column 0) none}
    | _ => {row (column 1) (some 2), row (column 1) (some 3), row (column 1) none}
  unnested _ _ := 0
  mark _ _ _ := none
  place _ values := values.any fun v => v.any (· % 2 = 1)
  home := false

lemma edge_eq {e : JoinEdge} (he : e ∈ twoWorkers.graph.edges) :
    e.isUnnest = false ∧ e.joinType = .inner ∧ e.nullAware = false ∧ e.outputColumns = [] ∧
      e.leftEligibility = {0} ∧ e.rightEligibility = {1} ∧ e.leftKeys = [.column (column 0)] ∧
      e.rightKeys = [.column (column 1)] := by
  obtain rfl := List.mem_singleton.mp he
  exact ⟨rfl, rfl, rfl, rfl, rfl, rfl, rfl, rfl⟩

lemma relation_eq {i : ℕ} {r : Relation} (h : twoWorkers.graph.relations[i]? = some r) :
    r.columns = [column i] ∧ r.globalPartition = .unspecified := by
  have hrelations : twoWorkers.graph.relations =
      [⟨[column 0], .unspecified, false⟩, ⟨[column 1], .unspecified, false⟩] := rfl
  rw [hrelations] at h
  rcases i with - | - | i
  · obtain rfl := Option.some.inj h
    exact ⟨rfl, rfl⟩
  · obtain rfl := Option.some.inj h
    exact ⟨rfl, rfl⟩
  · cases h

lemma columnsApart : ColumnsApart twoWorkers.graph where
  relations i j r s c hr hs hc hc' := by
    rw [(relation_eq hr).1, List.mem_singleton] at hc
    rw [(relation_eq hs).1, List.mem_singleton, hc] at hc'
    exact congrArg Column.id hc'
  fresh e he p hp := by
    rw [(edge_eq he).2.2.2.1] at hp
    cases hp
  edges e he f _ p hp := by
    rw [(edge_eq he).2.2.2.1] at hp
    cases hp
  outputs e he p hp := by
    rw [(edge_eq he).2.2.2.1] at hp
    cases hp

lemma unspecified_of_leaf {id : ℕ} {p : Partitioning} (h : LeafPartition twoWorkers id p) :
    p = .unspecified := by
  rcases h with rfl | rfl
  · cases hr : twoWorkers.graph.relations[id]? with
    | none => rfl
    | some r => exact (relation_eq hr).2
  · rfl

lemma keysRead (i : ℕ) (hi : i < 2) : KeysRead twoWorkers.graph {i} [.column (column i)] := by
  intro key hkey c hc
  rw [List.mem_singleton.mp hkey] at hc
  rw [List.mem_singleton.mp hc, JoinHypergraph.mem_coverColumns]
  obtain ⟨r, hr⟩ : ∃ r, twoWorkers.graph.relations[i]? = some r :=
    ⟨_, List.getElem?_eq_getElem hi⟩
  exact .inl ⟨r, i, hr, Finset.mem_singleton_self i, by
    rw [(relation_eq hr).1]
    exact List.mem_cons_self⟩

lemma lawful : Lawful twoWorkers keys meaning where
  outputPartitioning := rfl
  idsDistinct := by
    unfold JoinHypergraph.IdsDistinct
    decide
  columnsApart := columnsApart
  leftKeys e he := by
    obtain ⟨-, -, -, -, hcover, -, hkeys, -⟩ := edge_eq he
    rw [hcover, hkeys]
    exact keysRead 0 (by decide)
  rightKeys e he := by
    obtain ⟨-, -, -, -, -, hcover, -, hkeys⟩ := edge_eq he
    rw [hcover, hkeys]
    exact keysRead 1 (by decide)
  nullAware e he haware := by
    rw [(edge_eq he).2.2.1] at haware
    cases haware
  leafKeys id p hp := by
    rw [unspecified_of_leaf hp]
    exact ⟨fun key hkey => absurd hkey List.not_mem_nil, rfl⟩
  place _ _ _ _ _ := ⟨rfl, rfl⟩
  coalesced a b row h hagree := by
    cases a with
    | other => cases h
    | column c =>
        cases b with
        | other => cases h
        | column d => simp [Meaning.value, keys, meaning, Expr.columns]
  nulls a b h := by
    cases a with
    | other => cases h
    | column c =>
        cases b with
        | other => cases h
        | column d => exact ⟨rfl, rfl⟩

lemma inner_of_oriented {edge : JoinEdge} {shape : Shape} {left right : MemoOp ℕ}
    (h : Oriented twoWorkers.graph edge shape left right) : shape.joinType = .inner := by
  have htype := (edge_eq (List.mem_of_getElem? h.edge_eq)).2.1
  have horientation := h.orientation
  generalize shape.joinType = joinType at horientation ⊢
  generalize shape.reversedAnti = reversedAnti at horientation
  cases horientation with
  | asWritten => exact htype
  | exchanged _ _ hswap =>
      rw [htype] at hswap
      exact (Option.some.inj hswap).symm
  | reversedAnti _ _ hanti =>
      rw [htype] at hanti
      cases hanti

lemma rowsLawful : RowsLawful twoWorkers keys meaning where
  leftKeys _ _ _ _ _ _ _ _ _ _ x _ y _ hsame := by
    rcases hsame with hsame | hsame
    · rw [show x = y from of_decide_eq_true hsame]
    · rw [show y = x from of_decide_eq_true hsame]
  rightKeys _ _ _ _ _ _ _ _ _ _ x _ y _ hsame := by
    rcases hsame with hsame | hsame
    · rw [show x = y from of_decide_eq_true hsame]
    · rw [show y = x from of_decide_eq_true hsame]
  surviving _ _ _ _ _ _ _ _ _ _ _ _ _ _ _ _ _ hd := absurd hd List.not_mem_nil
  counted _ _ _ _ h _ hcounts := by
    rw [inner_of_oriented h] at hcounts
    cases hcounts
  nullAware e he haware := by
    rw [(edge_eq he).2.2.1] at haware
    cases haware

lemma unnestsDistinct : UnnestsDistinct twoWorkers.graph where
  single e he hun := by
    rw [(edge_eq he).1] at hun
    cases hun
  distinct e he _ _ hun := by
    rw [(edge_eq he).1] at hun
    cases hun

lemma exists_root : ∃ root, DPhyp.enumerate twoWorkers (fun _ => none) 0 = .ok (some root) := by
  have hsome : (DPhyp.enumerate twoWorkers (fun _ => none) 0).toOption.join.isSome = true := by
    decide +kernel
  obtain ⟨root, hroot⟩ := Option.isSome_iff_exists.mp hsome
  refine ⟨root, ?_⟩
  cases hresult : DPhyp.enumerate twoWorkers (fun _ => none) 0 with
  | error _ =>
      rw [hresult] at hroot
      cases hroot
  | ok result =>
      rw [hresult] at hroot
      exact congrArg Except.ok hroot

end TwoTasks

end Verax.JoinOrder
