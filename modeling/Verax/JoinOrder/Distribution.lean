import Verax.JoinOrder.Placement
import Verax.JoinOrder.PlanRules

/-!
# Joins over distributed rows

* `joinRow_left`, `joinRow_right`, `joinRow_output`: the columns of a join's output row.
* `Delivered.gathered_eq`, `Delivered.bind`: what is known of rows that lie as a partitioning says.
* `Meets`, `Laid`: the partitionings of two inputs that a join is considered for, and plans of such
  joins.
* `Meets.follows`: the partitioning of a join's output is that of an input that the join preserves,
  as far as the output has its keys.
-/

set_option linter.unusedSectionVars false

namespace Verax.JoinOrder

open Verax.Lib Verax.Lib.Spreads Enumerator

variable {F σ : Type} [Add F] [BEq F] [LT F] [DecidableLT F]

/-! ### Columns of an output row -/

/-- Columns of different relations are different, and those that edges add are new ones.
Source: `Node.cpp` `Join::Join`, the check of null-extended outputs. -/
structure ColumnsApart (g : JoinHypergraph) : Prop where
  relations : ∀ (i j : ℕ) (r s : Relation) (c : Column), g.relations[i]? = some r →
    g.relations[j]? = some s → c ∈ r.columns → c ∈ s.columns → i = j
  fresh : ∀ e ∈ g.edges, ∀ p ∈ e.outputColumns.zip e.sourceColumns, p.1 ≠ p.2 →
    ∀ r ∈ g.relations, p.1 ∉ r.columns
  edges : ∀ e ∈ g.edges, ∀ f ∈ g.edges, ∀ p ∈ e.outputColumns.zip e.sourceColumns,
    ∀ q ∈ f.outputColumns.zip f.sourceColumns, p.1 = q.1 → p.1 ≠ p.2 → q.1 ≠ q.2 → e = f
  outputs : ∀ e ∈ g.edges, ∀ p ∈ e.outputColumns.zip e.sourceColumns,
    ∀ q ∈ e.outputColumns.zip e.sourceColumns, p.1 = q.1 → p.2 = q.2

section rows

variable {g : JoinHypergraph} {κ τ : Type} {M : Meaning κ τ} (hapart : ColumnsApart g)
  {A B : RelationSet} {edge : JoinEdge} {i : ℕ} {l r : Option (Row κ)} {m : Truth}
include hapart

lemma ColumnsApart.not_mem (hdisj : Disjoint A B) {c : Column} (hA : c ∈ g.coverColumns A) :
    c ∉ g.coverColumns B := by
  intro hB
  rw [JoinHypergraph.mem_coverColumns] at hA hB
  rcases hA with ⟨r, i, hr, hi, hc⟩ | ⟨e, he, hsub, source, hp, hne⟩
  · rcases hB with ⟨s, j, hs, hj, hc'⟩ | ⟨f, hf, -, source, hq, hne⟩
    · obtain rfl := hapart.relations i j r s c hr hs hc hc'
      exact Finset.disjoint_left.mp hdisj hi hj
    · exact hapart.fresh f hf _ hq hne r (List.mem_of_getElem? hr) hc
  · rcases hB with ⟨s, j, hs, hj, hc'⟩ | ⟨f, hf, hsub', source', hq, hne'⟩
    · exact hapart.fresh e he _ hp hne s (List.mem_of_getElem? hs) hc'
    · obtain rfl := hapart.edges e he f hf _ hp _ hq rfl hne hne'
      obtain ⟨v, hv⟩ := e.leftEligibility_nonempty
      have hv := Finset.mem_union_left e.rightEligibility hv
      exact Finset.disjoint_left.mp hdisj (hsub hv) (hsub' hv)

/-- An edge adds no column to a side that it reaches beyond. -/
lemma ColumnsApart.output_not_mem (hedge : edge ∈ g.edges) {o source : Column}
    (hp : (o, source) ∈ edge.outputColumns.zip edge.sourceColumns) (hne : o ≠ source)
    (hcross : ¬ edge.totalEligibility ⊆ A) : o ∉ g.coverColumns A := by
  intro ho
  rcases JoinHypergraph.mem_coverColumns.mp ho with ⟨r, i, hr, -, hc⟩ | ⟨f, hf, hsub, s, hq, hne'⟩
  · exact hapart.fresh edge hedge _ hp hne r (List.mem_of_getElem? hr) hc
  · obtain rfl := hapart.edges edge hedge f hf _ hp _ hq rfl hne hne'
    exact hcross hsub

omit hapart in
lemma joinRow_left {c : Column} (hc : c ∈ g.coverColumns A) :
    joinRow g M edge i A B l r m c = l.bind (· c) := by
  rw [joinRow, if_pos (.inl hc), mergedRow, if_pos hc]

lemma joinRow_right (hdisj : Disjoint A B) {c : Column} (hc : c ∈ g.coverColumns B) :
    joinRow g M edge i A B l r m c = r.bind (· c) := by
  rw [joinRow, if_pos (.inr hc), mergedRow, if_neg (hapart.not_mem hdisj.symm hc), if_pos hc]

/-- The column that an edge outputs for one of its inputs. -/
lemma joinRow_output (hedge : edge ∈ g.edges) (hA : ¬ edge.totalEligibility ⊆ A)
    (hB : ¬ edge.totalEligibility ⊆ B) {c : Column}
    (hc : c ∈ g.coverColumns A ∨ c ∈ g.coverColumns B) :
    joinRow g M edge i A B l r m
        (((edge.sourceColumns.zip edge.outputColumns).lookup c).getD c) =
      mergedRow g A B l r c := by
  cases hlookup : (edge.sourceColumns.zip edge.outputColumns).lookup c with
  | none => exact if_pos hc
  | some o =>
      have hmem : (o, c) ∈ edge.outputColumns.zip edge.sourceColumns := by
        obtain ⟨l₁, l₂, hsplit, -⟩ := List.lookup_eq_some_iff.mp hlookup
        have hmem : (c, o) ∈ edge.sourceColumns.zip edge.outputColumns := by
          rw [hsplit]
          exact List.mem_append_right _ List.mem_cons_self
        rw [← List.zip_swap]
        exact List.mem_map_of_mem hmem
      change joinRow g M edge i A B l r m o = mergedRow g A B l r c
      by_cases hne : o = c
      · rw [hne]
        exact if_pos hc
      rw [joinRow, if_neg fun ho => ho.elim (hapart.output_not_mem hedge hmem hne hA)
        (hapart.output_not_mem hedge hmem hne hB)]
      cases hsource : (edge.outputColumns.zip edge.sourceColumns).lookup o with
      | none =>
          cases bne_iff_ne.mp (List.lookup_eq_none_iff.mp hsource _ hmem) rfl
      | some source =>
          obtain ⟨l₁, l₂, hsplit, -⟩ := List.lookup_eq_some_iff.mp hsource
          have hmem' : (o, source) ∈ edge.outputColumns.zip edge.sourceColumns := by
            rw [hsplit]
            exact List.mem_append_right _ List.mem_cons_self
          obtain rfl : source = c := hapart.outputs edge hedge _ hmem' _ hmem rfl
          exact if_pos hc

/-- A key of the left input over the columns that the edge outputs for it. -/
lemma value_substitute_left (hedge : edge ∈ g.edges) (hA : ¬ edge.totalEligibility ⊆ A)
    (hB : ¬ edge.totalEligibility ⊆ B) {key : Expr}
    (hkey : ∀ c ∈ key.columns, c ∈ g.coverColumns A) :
    M.value (key.substitute (edge.sourceColumns.zip edge.outputColumns))
        (joinRow g M edge i A B l r m) =
      M.value key fun c => l.bind (· c) := by
  rw [M.value_substitute]
  refine M.value_congr fun c hc => ?_
  rw [joinRow_output hapart hedge hA hB (.inl (hkey c hc)), mergedRow, if_pos (hkey c hc)]

/-- A key of the right input over the columns that the edge outputs for it. -/
lemma value_substitute_right (hdisj : Disjoint A B) (hedge : edge ∈ g.edges)
    (hA : ¬ edge.totalEligibility ⊆ A) (hB : ¬ edge.totalEligibility ⊆ B) {key : Expr}
    (hkey : ∀ c ∈ key.columns, c ∈ g.coverColumns B) :
    M.value (key.substitute (edge.sourceColumns.zip edge.outputColumns))
        (joinRow g M edge i A B l r m) =
      M.value key fun c => r.bind (· c) := by
  rw [M.value_substitute]
  refine M.value_congr fun c hc => ?_
  rw [joinRow_output hapart hedge hA hB (.inr (hkey c hc)), mergedRow,
    if_neg (hapart.not_mem hdisj.symm (hkey c hc)), if_pos (hkey c hc)]

end rows

/-! ### Rows as a partitioning says -/

section delivered

variable {κ τ : Type} {M : Meaning κ τ} [DecidableEq κ] [Fintype τ] [DecidableEq τ]
  {p : Partitioning} {W : Multiset (Row κ)} {S : τ → Multiset (Row κ)}

lemma delivered_unspecified : Delivered M .unspecified W S ↔ gathered S = W := Iff.rfl

lemma delivered_gather (h : p.kind = .gather) :
    Delivered M p W S ↔ S = fun t => if t = M.home then W else 0 := by
  rw [Delivered, h]

lemma delivered_broadcast (h : p.kind = .broadcast) : Delivered M p W S ↔ S = fun _ => W := by
  rw [Delivered, h]

lemma delivered_partitioned (h : p.kind = .partitioned) (hplain : p.replicateNullsAndAny = false) :
    Delivered M p W S ↔ S = fun t => W.filter (M.task p · = t) := by
  rw [Delivered, h]
  simp [hplain]

lemma delivered_shared (h : p.kind = .partitioned) (hshared : p.replicateNullsAndAny = true) :
    Delivered M p W S ↔ Shared (M.asks p) W S := by
  rw [Delivered, h]
  simp [hshared]

lemma Delivered.home (h : Delivered M p W S) (hkind : p.kind = .gather) : S M.home = W := by
  rw [(delivered_gather hkind).mp h]
  exact if_pos rfl

lemma Delivered.away (h : Delivered M p W S) (hkind : p.kind = .gather) {t : τ}
    (ht : t ≠ M.home) : S t = 0 := by
  rw [(delivered_gather hkind).mp h]
  exact if_neg ht

/-- Rows that are not replicated are the rows of all tasks. -/
lemma Delivered.gathered_eq (h : Delivered M p W S) (hkind : p.kind ≠ .broadcast)
    (hplain : p.replicateNullsAndAny = false) : gathered S = W := by
  cases hp : p.kind with
  | broadcast => exact absurd hp hkind
  | unspecified | arbitrary => simpa only [Delivered, hp] using h
  | gather =>
      rw [gathered_of_home fun t ht => h.away hp ht, h.home hp]
  | partitioned =>
      rw [(delivered_partitioned hp hplain).mp h]
      exact gathered_placed (M.task p) W

/-- A task has only rows of the whole. -/
lemma Delivered.subset (h : Delivered M p W S) {t : τ} {row : Row κ} (hrow : row ∈ S t) :
    row ∈ W := by
  cases hp : p.kind with
  | unspecified | arbitrary =>
      have hgathered : gathered S = W := by simpa only [Delivered, hp] using h
      exact hgathered ▸ mem_gathered.mpr ⟨t, hrow⟩
  | gather =>
      rw [(delivered_gather hp).mp h] at hrow
      simp only at hrow
      split at hrow
      · exact hrow
      · exact absurd hrow (Multiset.notMem_zero row)
  | broadcast =>
      rw [(delivered_broadcast hp).mp h] at hrow
      exact hrow
  | partitioned =>
      cases hreplicate : p.replicateNullsAndAny with
      | false =>
          rw [(delivered_partitioned hp hreplicate).mp h] at hrow
          exact Multiset.mem_of_mem_filter hrow
      | true => exact ((delivered_shared hp hreplicate).mp h).subset t row hrow

/-- A task has the rows that are placed on it. -/
lemma Delivered.task_eq (h : Delivered M p W S) (hkind : p.kind = .partitioned)
    (hplain : p.replicateNullsAndAny = false) {t : τ} {row : Row κ} (hrow : row ∈ S t) :
    M.task p row = t := by
  rw [(delivered_partitioned hkind hplain).mp h] at hrow
  exact (Multiset.mem_filter.mp hrow).2

/-- An operator that treats rows on their own, and leaves them where they are placed, may run on
each task. -/
lemma Delivered.bind (h : Delivered M p W S) (hplain : p.replicateNullsAndAny = false)
    {f : Row κ → Multiset (Row κ)}
    (hf : p.kind = .partitioned → ∀ row, ∀ made ∈ f row, M.task p made = M.task p row) :
    Delivered M p (W.bind f) fun t => (S t).bind f := by
  cases hp : p.kind with
  | unspecified | arbitrary =>
      have hgathered : gathered S = W := by simpa only [Delivered, hp] using h
      simp only [Delivered, hp]
      rw [gathered_bind, hgathered]
  | gather =>
      rw [delivered_gather hp]
      rw [(delivered_gather hp).mp h]
      funext t
      by_cases ht : t = M.home
      · simp only [if_pos ht]
      · simp only [if_neg ht, Multiset.zero_bind]
  | broadcast =>
      rw [delivered_broadcast hp]
      rw [(delivered_broadcast hp).mp h]
  | partitioned =>
      rw [delivered_partitioned hp hplain]
      have hgathered := h.gathered_eq (by rw [hp]; decide) hplain
      have hplaced : ∀ s, ∀ made ∈ (S s).bind f, M.task p made = s := by
        intro s made hmade
        obtain ⟨row, hrow, hmade⟩ := Multiset.mem_bind.mp hmade
        rw [hf hp row made hmade, h.task_eq hp hplain hrow]
      rw [← hgathered, ← gathered_bind]
      exact funext (eq_filter_of_placed hplaced)

/-- Rows can lie as any partitioning says. -/
lemma exists_delivered (p : Partitioning) (W : Multiset (Row κ)) :
    ∃ S : τ → Multiset (Row κ), Delivered M p W S := by
  cases hp : p.kind with
  | unspecified | arbitrary =>
      refine ⟨fun t => if t = M.home then W else 0, ?_⟩
      simp only [Delivered, hp]
      exact (gathered_of_home fun t ht => if_neg ht).trans (if_pos rfl)
  | gather => exact ⟨_, (delivered_gather hp).mpr rfl⟩
  | broadcast => exact ⟨_, (delivered_broadcast hp).mpr rfl⟩
  | partitioned =>
      cases hreplicate : p.replicateNullsAndAny with
      | false => exact ⟨_, (delivered_partitioned hp hreplicate).mpr rfl⟩
      | true =>
          exact ⟨fun _ => W, (delivered_shared hp hreplicate).mpr
            ⟨fun _ _ h => h, fun _ _ h _ => h, fun _ h => h⟩⟩

end delivered

/-! ### Plans over distributed rows -/

/-- Every key reads columns of a cover. -/
def KeysRead (g : JoinHypergraph) (cover : RelationSet) (keys : List Expr) : Prop :=
  ∀ key ∈ keys, ∀ c ∈ key.columns, c ∈ g.coverColumns cover

lemma KeysRead.mono {g : JoinHypergraph} {A S : RelationSet} {keys : List Expr}
    (h : KeysRead g A keys) (hsub : A ⊆ S) : KeysRead g S keys :=
  fun key hkey c hc => JoinHypergraph.coverColumns_mono hsub (h key hkey c hc)

section laid

variable (env : Env F σ)

/-- Rows are partitioned on join keys, given by their positions.
Source: `JoinPartitioning.cpp` `JoinPartitioning::from`. -/
structure PartitionedOn (p : Partitioning) (joinKeys : List Expr) (positions : List ℕ) : Prop where
  kind : p.kind = .partitioned
  plain : p.replicateNullsAndAny = false
  keys : List.Forall₂ (fun key i => ∃ joinKey, joinKeys[i]? = some joinKey ∧
    (joinKey = key ∨ env.sameOrEqual joinKey key = true)) p.keys positions

/-- The partitionings of two inputs that a join is considered for. -/
inductive Meets (shape : Shape) (edge : JoinEdge) (leftKeys rightKeys : List Expr)
    (p q : Partitioning) : Prop
  | gathered : p.kind = .gather → q.kind = .gather → Meets shape edge leftKeys rightKeys p q
  | replicated : p.kind = .broadcast → q.kind = .broadcast → p.replicateNullsAndAny = false →
      Meets shape edge leftKeys rightKeys p q
  | rightReplicated : p.kind ≠ .broadcast → p.replicateNullsAndAny = false → q.kind = .broadcast →
      shape.joinType.canBroadcastBuild = true → shape.reversedAnti = false →
      Meets shape edge leftKeys rightKeys p q
  | leftReplicated : p.kind = .broadcast → q.kind ≠ .broadcast → q.replicateNullsAndAny = false →
      shape.joinType.canBroadcastProbe = true → shape.reversedAnti = false →
      Meets shape edge leftKeys rightKeys p q
  | copartitioned {positions : List ℕ} : edge.nullAware = false →
      PartitionedOn env p leftKeys positions → PartitionedOn env q rightKeys positions →
      p.partitionType = q.partitionType ∨
        haveCommonJoinPartitionType env p.partitionType q.partitionType = true →
      Meets shape edge leftKeys rightKeys p q
  | existenceRight : edge.nullAware = true →
      runType shape.joinType shape.reversedAnti = .leftSemiProject ∨
        runType shape.joinType shape.reversedAnti = .anti →
      p = .hash leftKeys false → q = .hash rightKeys true → Meets shape edge leftKeys rightKeys p q
  | existenceLeft : edge.nullAware = true →
      runType shape.joinType shape.reversedAnti = .rightSemiProject ∨
        runType shape.joinType shape.reversedAnti = .rightAnti →
      p = .hash leftKeys true → q = .hash rightKeys false → Meets shape edge leftKeys rightKeys p q

/-- The edges whose keys a candidate joins on. -/
def shapeEdges (shape : Shape) (edge : JoinEdge) : List JoinEdge :=
  edge :: shape.keyEdges.filterMap (env.graph.edges[·]?)

/-- The keys of the left input of a join, as the input has them. -/
def leftCoverKeys (shape : Shape) (edge : JoinEdge) (left : MemoOp F) : List Expr :=
  keysInCoverSchema env (orientedKeys left (shapeEdges env shape edge)).1 left.cover

/-- The keys of the right input of a join, as the input has them. -/
def rightCoverKeys (shape : Shape) (edge : JoinEdge) (left right : MemoOp F) : List Expr :=
  keysInCoverSchema env (orientedKeys left (shapeEdges env shape edge)).2 right.cover

/-- The partitioning recorded for a join. -/
def shapePartitioning (shape : Shape) (edge : JoinEdge) (left right : MemoOp F) : Partitioning :=
  env.joinOutputPartitioning (emittedJoinType shape.joinType shape.reversedAnti)
    left.outputPartitioning right.outputPartitioning (leftCoverKeys env shape edge left)
    (rightCoverKeys env shape edge left right) shape.combined shape.edgeIndex

/-- The join that a candidate stands for. -/
def shapeOp (c : Cost F) (shape : Shape) (edge : JoinEdge) (left right : MemoOp F) : MemoOp F :=
  .join c left right shape.edgeIndex shape.joinType shape.reversedAnti shape.keyEdges
    shape.filterEdges (shapePartitioning env shape edge left right)

/-- What a candidate joins its inputs by. -/
def shapeSpec {κ τ : Type} (M : Meaning κ τ) (shape : Shape) (edge : JoinEdge)
    (left right : MemoOp F) : JoinSpec (Row κ) κ :=
  joinSpec M env edge left right shape.edgeIndex shape.joinType shape.reversedAnti shape.keyEdges

/-- The partitionings of a relation's leaves: as it is read, and as it is read grouped. -/
def LeafPartition (id : ℕ) (p : Partitioning) : Prop :=
  p = (env.graph.relations[id]?.map (·.globalPartition)).getD .unspecified ∨
    p = env.groupedPartition id

/-- Plans whose joins have their inputs where they need them, and that repartition only rows that
are not replicated. -/
inductive Laid : MemoOp F → Prop
  | leaf {c : Cost F} {id : ℕ} {p : Partitioning} : LeafPartition env id p → Laid (.leaf c id p)
  | unnest {c : Cost F} {input : MemoOp F} {i : ℕ} {relation : RelationSet}
      {filterEdges : List ℕ} : Laid input →
      input.outputPartitioning.replicateNullsAndAny = false →
      Laid (.unnest c input i relation filterEdges)
  | exchange {c : Cost F} {input : MemoOp F} {p : Partitioning} : Laid input →
      input.outputPartitioning.kind ≠ .broadcast →
      input.outputPartitioning.replicateNullsAndAny = false →
      KeysRead env.graph input.cover p.keys → Laid (.exchange c input p)
  | join {c : Cost F} {shape : Shape} {edge : JoinEdge} {left right : MemoOp F} :
      Oriented env.graph edge shape left right → Laid left → Laid right →
      Meets env shape edge (leftCoverKeys env shape edge left)
        (rightCoverKeys env shape edge left right) left.outputPartitioning
        right.outputPartitioning →
      Laid (shapeOp env c shape edge left right)

end laid

/-! ### What is relied on -/

/-- A null-aware edge is an anti or semi project join on one key.
Source: `Node.cpp` `Join::Join`, velox `HashJoinNode`. -/
structure NullAwareEdge (e : JoinEdge) : Prop where
  joinType : e.joinType = .anti ∨ e.joinType = .leftSemiProject
  leftKey : ∃ key, e.leftKeys = [key]
  rightKey : ∃ key, e.rightKeys = [key]
  nullAsValue : e.nullAsValue = false

/-- What is relied on of the graph, of partition functions and of keys. -/
structure Lawful (env : Env F σ) (k : KeyFactory) {κ τ : Type} (M : Meaning κ τ) : Prop where
  outputPartitioning : env.joinOutputPartitioning = joinOutputPartitioning env k
  idsDistinct : env.graph.IdsDistinct
  columnsApart : ColumnsApart env.graph
  leftKeys : ∀ e ∈ env.graph.edges, KeysRead env.graph e.leftEligibility e.leftKeys
  rightKeys : ∀ e ∈ env.graph.edges, KeysRead env.graph e.rightEligibility e.rightKeys
  nullAware : ∀ e ∈ env.graph.edges, e.nullAware = true → NullAwareEdge e
  leafKeys : ∀ id p, LeafPartition env id p →
    KeysRead env.graph {id} p.keys ∧ p.replicateNullsAndAny = false
  place : ∀ left right common keys, commonJoinPartitionType env left right = some common →
    M.place common keys = M.place left keys ∧ M.place common keys = M.place right keys
  coalesced : ∀ a b row, k.coalesces a b = true →
    (∀ v w, M.value a row = some v → M.value b row = some w → v = w) →
    M.value (k.canonicalizeCoalesce a b) row = (M.value a row).or (M.value b row)
  nulls : ∀ a b, k.coalesces a b = true →
    M.value a (fun _ => none) = none ∧ M.value b (fun _ => none) = none

/-- What is relied on of the rows of inputs and outputs of joins: keys of an input that are taken
for equal are equal on its rows, a column of a key's class that the output has is equal to the key,
rows that a join counts together are alike, and a null-aware edge that has a filter, which the rows
of other tasks might pass, has no NULL key on its left. Source: `JoinHypergraph.cpp`
`canonicalKeyEdges`, `Node.cpp` `survivingEquiKey`, `QueryGraph.cpp` `Expr::sameOrEqual`. -/
structure RowsLawful (env : Env F σ) (k : KeyFactory) {κ τ : Type} [DecidableEq κ]
    (M : Meaning κ τ) : Prop where
  leftKeys : ∀ (edge : JoinEdge) (shape : Shape) (left right : MemoOp F),
    Oriented env.graph edge shape left right → Laid env left →
    ∀ W ∈ Yields M env left, ∀ row ∈ W, ∀ x ∈ left.outputPartitioning.keys,
    ∀ y ∈ leftCoverKeys env shape edge left,
      env.sameOrEqual x y = true ∨ env.sameOrEqual y x = true → M.value x row = M.value y row
  rightKeys : ∀ (edge : JoinEdge) (shape : Shape) (left right : MemoOp F),
    Oriented env.graph edge shape left right → Laid env right →
    ∀ W ∈ Yields M env right, ∀ row ∈ W, ∀ x ∈ right.outputPartitioning.keys,
    ∀ y ∈ rightCoverKeys env shape edge left right,
      env.sameOrEqual x y = true ∨ env.sameOrEqual y x = true → M.value x row = M.value y row
  surviving : ∀ (cost : Cost F) (edge : JoinEdge) (shape : Shape) (left right : MemoOp F),
    Oriented env.graph edge shape left right → Laid env (shapeOp env cost shape edge left right) →
    emittedJoinType shape.joinType shape.reversedAnti = .inner →
    ∀ W ∈ Yields M env (shapeOp env cost shape edge left right), ∀ row ∈ W,
    ∀ (c d : Column) (i : ℕ),
      .column c ∈ left.outputPartitioning.keys ∨ .column c ∈ right.outputPartitioning.keys →
      c.equivalence = some i → d ∈ k.classColumns i →
      d ∈ env.graph.coverOutputColumns k.unnestExpressions shape.combined → row d = row c
  counted : ∀ (edge : JoinEdge) (shape : Shape) (left right : MemoOp F),
    Oriented env.graph edge shape left right → Laid env left → shape.joinType.counts = true →
    ∀ A ∈ Yields M env left, ∀ a ∈ A, ∀ a' ∈ A,
      (shapeSpec env M shape edge left right).countingKey
          (shapeSpec env M shape edge left right).leftKeys a ≠ none →
        (shapeSpec env M shape edge left right).countingKey
            (shapeSpec env M shape edge left right).leftKeys a =
          (shapeSpec env M shape edge left right).countingKey
            (shapeSpec env M shape edge left right).leftKeys a' →
        (shapeSpec env M shape edge left right).output (some a) none none =
          (shapeSpec env M shape edge left right).output (some a') none none
  nullAware : ∀ e ∈ env.graph.edges, e.nullAware = true → e.filter ≠ [] → ∀ op, Laid env op →
    e.leftEligibility ⊆ op.cover → ∀ W ∈ Yields M env op, ∀ row ∈ W,
    ∀ key ∈ keysInCoverSchema env e.leftKeys op.cover, M.value key row ≠ none

/-! ### The partitioning of a join's output -/

lemma forall₂_of_mapM_eq_some {α β : Type} {f : α → Option β} :
    ∀ {l : List α} {l' : List β}, l.mapM f = some l' → List.Forall₂ (fun a b => f a = some b) l l'
  | [], _, h => by
    obtain rfl := Option.some.inj h
    exact .nil
  | a :: l, l', h => by
    rw [List.mapM_cons] at h
    cases ha : f a with
    | none =>
        rw [ha] at h
        cases h
    | some b =>
        cases hl : l.mapM f with
        | none =>
            rw [ha, hl] at h
            cases h
        | some bs =>
            rw [ha, hl] at h
            obtain rfl := Option.some.inj h
            exact .cons ha (forall₂_of_mapM_eq_some hl)

lemma exists_of_forall₂ {α β : Type} {R : α → β → Prop} {l : List α} {l' : List β}
    (h : List.Forall₂ R l l') {b : β} (hb : b ∈ l') : ∃ a ∈ l, R a b := by
  induction h with
  | nil => cases hb
  | cons hab _ ih =>
      rcases List.mem_cons.mp hb with rfl | hb
      · exact ⟨_, List.mem_cons_self, hab⟩
      · obtain ⟨a, ha, hR⟩ := ih hb
        exact ⟨a, List.mem_cons_of_mem _ ha, hR⟩

/-- Items related one by one, with the same values. -/
lemma map_eq_of_forall₂ {α β γ : Type} {R : α → β → Prop} {f : α → γ} {g : β → γ} {l : List α}
    {l' : List β} (h : List.Forall₂ R l l') (hR : ∀ a ∈ l, ∀ b, R a b → g b = f a) :
    l'.map g = l.map f := by
  induction h with
  | nil => rfl
  | cons hab _ ih =>
      rw [List.map_cons, List.map_cons, hR _ List.mem_cons_self _ hab,
        ih fun a ha => hR a (List.mem_cons_of_mem _ ha)]

section follows

variable (env : Env F σ) (k : KeyFactory)

/-- The partitioning of a join's output is that of an input which is not replicated and has a row in
each row of the output, as far as the output has its keys, or that of both inputs. -/
inductive Follows (joinType : JoinType) (p q : Partitioning) (leftKeys rightKeys : List Expr)
    (outputColumns : Finset Column) (edge : JoinEdge) : Partitioning → Prop
  | gathered : p.kind = .gather → q.kind = .gather →
      Follows joinType p q leftKeys rightKeys outputColumns edge .gather
  | replicated : p.kind = .broadcast → q.kind = .broadcast → p.replicateNullsAndAny = false →
      Follows joinType p q leftKeys rightKeys outputColumns edge p
  | left : p.kind ≠ .broadcast → p.replicateNullsAndAny = false →
      joinType.preservedSides.left = true →
      Follows joinType p q leftKeys rightKeys outputColumns edge
        (retained env k joinType p q outputColumns)
  | right : q.kind ≠ .broadcast → q.replicateNullsAndAny = false →
      joinType.preservedSides.right = true →
      Follows joinType p q leftKeys rightKeys outputColumns edge
        (retained env k joinType q p outputColumns)
  | full : joinType = .full → Follows joinType p q leftKeys rightKeys outputColumns edge
      (fullJoinPartitioning env k p q leftKeys rightKeys outputColumns edge)

variable {env k} {joinType : JoinType} {p q : Partitioning} {leftKeys rightKeys : List Expr}
  {outputColumns : Finset Column} {edge : JoinEdge}

lemma follows_left (hfull : joinType ≠ .full) (hgather : ¬ (p.kind = .gather ∧ q.kind = .gather))
    (hkind : p.kind ≠ .broadcast) (hplain : p.replicateNullsAndAny = false)
    (hleft : joinType.preservedSides.left = true) :
    Follows env k joinType p q leftKeys rightKeys outputColumns edge
      (outputPartitioning env k joinType p q leftKeys rightKeys outputColumns edge) := by
  have heq : outputPartitioning env k joinType p q leftKeys rightKeys outputColumns edge =
      retained env k joinType p q outputColumns := by
    simp [outputPartitioning, hgather, hkind, hfull, hleft]
  exact heq ▸ .left hkind hplain hleft

lemma follows_right (hfull : joinType ≠ .full) (hgather : ¬ (p.kind = .gather ∧ q.kind = .gather))
    (hkind : q.kind ≠ .broadcast) (hplain : q.replicateNullsAndAny = false)
    (hleft : joinType.preservedSides.left = false ∨ p.kind = .broadcast)
    (hright : joinType.preservedSides.right = true) :
    Follows env k joinType p q leftKeys rightKeys outputColumns edge
      (outputPartitioning env k joinType p q leftKeys rightKeys outputColumns edge) := by
  have heq : outputPartitioning env k joinType p q leftKeys rightKeys outputColumns edge =
      retained env k joinType q p outputColumns := by
    rcases hleft with hleft | hleft
    · simp [outputPartitioning, hgather, hkind, hfull, hleft, hright]
    · simp [outputPartitioning, hkind, hfull, hleft, hright]
  exact heq ▸ .right hkind hplain hright

/-- Reversing an anti join keeps the sides it preserves. -/
lemma preservedSides_emitted (joinType : JoinType) (reversedAnti : Bool) :
    (emittedJoinType joinType reversedAnti).preservedSides =
      (runType joinType reversedAnti).preservedSides := by
  cases reversedAnti <;> rfl

/-- Inputs that a join is considered for, and the partitioning of its output. -/
lemma Meets.follows {shape : Shape}
    (h : Meets env shape edge leftKeys rightKeys p q) :
    Follows env k (emittedJoinType shape.joinType shape.reversedAnti) p q leftKeys rightKeys
      outputColumns edge
      (outputPartitioning env k (emittedJoinType shape.joinType shape.reversedAnti) p q leftKeys
        rightKeys outputColumns edge) := by
  cases h with
  | gathered hp hq =>
      rw [outputPartitioning, if_pos ⟨hp, hq⟩]
      exact .gathered hp hq
  | replicated hp hq hplain =>
      rw [outputPartitioning, if_neg (by simp [hp]), if_pos ⟨hp, hq⟩]
      exact .replicated hp hq hplain
  | rightReplicated hp hplain hq hbuild hreversed =>
      rw [hreversed]
      have hleft : shape.joinType.preservedSides.left = true := by
        revert hbuild
        cases shape.joinType <;> decide
      refine follows_left (fun hfull => ?_) (by simp [hq]) hp hplain hleft
      rw [show shape.joinType = .full from hfull] at hbuild
      cases hbuild
  | leftReplicated hp hq hplain hprobe hreversed =>
      rw [hreversed]
      have hright : shape.joinType.preservedSides.right = true := by
        revert hprobe
        cases shape.joinType <;> decide
      refine follows_right (fun hfull => ?_) (by simp [hp]) hq hplain (.inr hp) hright
      rw [show shape.joinType = .full from hfull] at hprobe
      cases hprobe
  | copartitioned _ hp hq _ =>
      have hp' : p.kind ≠ .broadcast := by
        rw [hp.kind]
        decide
      have hq' : q.kind ≠ .broadcast := by
        rw [hq.kind]
        decide
      have hgather : ¬ (p.kind = .gather ∧ q.kind = .gather) := by simp [hp.kind]
      by_cases hfull : emittedJoinType shape.joinType shape.reversedAnti = .full
      · rw [outputPartitioning, if_neg hgather, if_neg fun h => hp' h.1, if_pos hfull]
        exact .full hfull
      · cases hleft : (emittedJoinType shape.joinType shape.reversedAnti).preservedSides.left with
        | true => exact follows_left hfull hgather hp' hp.plain hleft
        | false =>
            refine follows_right hfull hgather hq' hq.plain (.inl hleft) ?_
            revert hfull hleft
            cases emittedJoinType shape.joinType shape.reversedAnti <;> decide
  | existenceRight _ htype hp hq =>
      subst hp hq
      have hleft : (emittedJoinType shape.joinType shape.reversedAnti).preservedSides.left =
          true := by
        rw [preservedSides_emitted]
        rcases htype with htype | htype <;> rw [htype] <;> rfl
      refine follows_left (fun hfull => ?_) (by simp [Partitioning.hash])
        (by simp [Partitioning.hash]) rfl hleft
      rw [hfull] at hleft
      cases hleft
  | existenceLeft _ htype hp hq =>
      subst hp hq
      have hsides : (emittedJoinType shape.joinType shape.reversedAnti).preservedSides =
          ⟨false, true⟩ := by
        rw [preservedSides_emitted]
        rcases htype with htype | htype <;> rw [htype] <;> rfl
      refine follows_right (fun hfull => ?_) (by simp [Partitioning.hash])
        (by simp [Partitioning.hash]) rfl (.inl (by rw [hsides])) (by rw [hsides])
      rw [hfull] at hsides
      cases hsides

/-! ### The keys of the output -/

/-- The cases of a partitioning carried over a join. -/
lemma retained_cases {source other : Partitioning} :
    retained env k joinType source other outputColumns = .unspecified ∨
      source.kind ≠ .partitioned ∧
        retained env k joinType source other outputColumns = source ∨
      source.kind = .partitioned ∧ ∃ partitionType keys,
        (partitionType = source.partitionType ∨
          commonJoinPartitionType env source.partitionType other.partitionType =
            some partitionType) ∧
        List.Forall₂ (fun key key' => key' = key ∨
          joinType = .inner ∧ survivingEquiKey k key outputColumns = some key') source.keys keys ∧
        retained env k joinType source other outputColumns =
          { source with partitionType := partitionType, keys := keys } := by
  by_cases hkind : source.kind = .partitioned
  · rw [retained, if_neg (not_not.mpr hkind)]
    cases htype : retainedType env source.partitionType other.partitionType with
    | none => exact .inl rfl
    | some partitionType =>
        have htype' : partitionType = source.partitionType ∨
            commonJoinPartitionType env source.partitionType other.partitionType =
              some partitionType := by
          unfold retainedType at htype
          split at htype
          · exact .inr htype
          · exact .inl (Option.some.inj htype).symm
        simp only
        split
        · exact .inr (.inr ⟨hkind, partitionType, source.keys, htype',
            List.forall₂_same.mpr fun _ _ => .inl rfl, rfl⟩)
        · split
          · exact .inl rfl
          · rename_i hinner
            cases hkeys : survivingKeys k source.keys outputColumns with
            | none => exact .inl rfl
            | some keys =>
                refine .inr (.inr ⟨hkind, partitionType, keys, htype', ?_, rfl⟩)
                refine (forall₂_of_mapM_eq_some hkeys).imp fun key key' h => ?_
                split at h
                · exact .inl (Option.some.inj h).symm
                · exact .inr ⟨not_not.mp hinner, h⟩
  · exact .inr (.inl ⟨hkind, if_pos hkind⟩)

/-- A column equal to a key is one of its class. -/
lemma mem_of_survivingEquiKey {key key' : Expr}
    (h : survivingEquiKey k key outputColumns = some key') :
    ∃ c i d, key = .column c ∧ key' = .column d ∧ c.equivalence = some i ∧
      d ∈ k.classColumns i ∧ d ∈ outputColumns := by
  unfold survivingEquiKey at h
  cases key with
  | other id columns => cases h
  | column c =>
      simp only [Option.bind_eq_some_iff, Option.map_eq_some_iff] at h
      obtain ⟨i, hi, d, hd, rfl⟩ := h
      exact ⟨c, i, d, rfl, rfl, hi, List.mem_of_find?_eq_some hd,
        by simpa using List.find?_some hd⟩

/-- A partitioning that a full join retains is on coalesced keys. -/
lemma fullJoinPartitioning_cases :
    fullJoinPartitioning env k p q leftKeys rightKeys outputColumns edge = .unspecified ∨
      p.kind = .partitioned ∧ q.kind = .partitioned ∧ p.replicateNullsAndAny = false ∧
        q.replicateNullsAndAny = false ∧ p.keys.length = q.keys.length ∧
        ∃ partitionType keys,
          commonJoinPartitionType env p.partitionType q.partitionType = some partitionType ∧
          List.Forall₂ (fun pair key =>
            coalescedKey env k edge leftKeys rightKeys outputColumns pair = some key)
            (p.keys.zip q.keys) keys ∧
          fullJoinPartitioning env k p q leftKeys rightKeys outputColumns edge =
            ⟨.partitioned, partitionType, keys, false⟩ := by
  unfold fullJoinPartitioning
  split
  · exact .inl rfl
  · rename_i hcond
    simp only [Bool.or_eq_true, decide_eq_true_eq, not_or, not_not, Bool.not_eq_true, ne_eq]
      at hcond
    obtain ⟨⟨⟨⟨⟨-, hp⟩, hq⟩, hplain⟩, hplain'⟩, hlength⟩ := hcond
    split
    · exact .inl rfl
    · rename_i partitionType htype
      split
      · exact .inl rfl
      · rename_i keys hkeys
        exact .inr ⟨hp, hq, hplain, hplain', hlength, partitionType, keys, htype,
          forall₂_of_mapM_eq_some hkeys, rfl⟩

/-- A coalesced key is the coalesce of the keys of a join equality that the two keys are equal
to. -/
lemma coalescedKey_eq_some {pair : Expr × Expr} {key : Expr}
    (h : coalescedKey env k edge leftKeys rightKeys outputColumns pair = some key) :
    ∃ x y, (x, y) ∈ leftKeys.zip rightKeys ∧ env.sameOrEqual pair.1 x = true ∧
      env.sameOrEqual pair.2 y = true ∧
      k.coalesces (x.substitute (edge.sourceColumns.zip edge.outputColumns))
        (y.substitute (edge.sourceColumns.zip edge.outputColumns)) = true ∧
      containsColumns outputColumns key = true ∧
      key = k.canonicalizeCoalesce (x.substitute (edge.sourceColumns.zip edge.outputColumns))
        (y.substitute (edge.sourceColumns.zip edge.outputColumns)) := by
  unfold coalescedKey at h
  split at h
  · cases h
  · rename_i found hfind
    simp only at h
    split at h
    · rename_i hcond
      obtain ⟨hcoalesces, hcontains⟩ := Bool.and_eq_true_iff.mp hcond
      obtain rfl := Option.some.inj h
      have hsame := List.find?_some hfind
      obtain ⟨hleft, hright⟩ := Bool.and_eq_true_iff.mp hsame
      exact ⟨found.1, found.2, List.mem_of_find?_eq_some hfind, hleft, hright, hcoalesces,
        hcontains, rfl⟩
    · cases h

end follows

end Verax.JoinOrder
