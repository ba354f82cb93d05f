import Verax.JoinOrder.RelationSet
import Verax.Plan.JoinType

/-!
# The join hypergraph

The input of join enumeration: relations, and edges that join them. An edge carries its
endpoint sets, its eligibility sets and its equi-keys; the facts its constructor checks are
fields (`JoinEdge`), so an ill-formed edge cannot be built, and likewise for the graph.

`crossingEdges` sorts the edges covered by two sides into those that split cleanly across them and
inner edges that can only filter above the join; `canonicalKeyEdges` drops key edges whose
equalities earlier ones imply; `checkEdgesEnforced` is the check every finished plan passes through.
The union-find of the source is modelled by the root function it maintains.

Left out: the relation's plan node beyond the facts read here, and the columns caches.
-/

namespace Verax.JoinOrder

/-! ### Expressions and partitionings -/

/-- A column, with the equivalence class recorded for it. Source: `QueryGraph.h` `Column`. -/
structure Column where
  id : ℕ
  name : String
  equivalence : Option ℕ
  deriving DecidableEq

/-- A key or predicate: a bare column, or another (hash-consed) expression over columns.
Source: `QueryGraph.h` `Expr`. -/
inductive Expr
  | column (c : Column)
  | other (id : ℕ) (columns : List Column)
  deriving DecidableEq

namespace Expr

/-- Source: `QueryGraph.h` `isColumn` / `as<Column>`. -/
def asColumn : Expr → Option Column
  | column c => some c
  | other _ _ => none

/-- The columns an expression reads. Source: `QueryGraph.h` `columns`. -/
def columns : Expr → List Column
  | column c => [c]
  | other _ cs => cs

end Expr

/-- Source: `PhysicalProperties.h` `PartitionKind`. -/
inductive PartitionKind
  | unspecified | partitioned | gather | broadcast | arbitrary
  deriving DecidableEq, Repr

/-- Partitioning of rows across tasks. `partitionType` names a connector partition function, `none`
standing for the standard hash. Every partitioning in the memo has global scope and no merge order,
so those two fields of the source are left out. Source: `PhysicalProperties.h` `Partitioning`. -/
structure Partitioning where
  kind : PartitionKind
  partitionType : Option ℕ
  keys : List Expr
  replicateNullsAndAny : Bool
  deriving DecidableEq

namespace Partitioning

/-- No guarantee. Source: `PhysicalProperties.h` `unspecified`. -/
def unspecified : Partitioning := ⟨.unspecified, none, [], false⟩

/-- Source: `PhysicalProperties.cpp` `hash`. -/
def hash (keys : List Expr) (replicateNullsAndAny : Bool) : Partitioning :=
  ⟨.partitioned, none, keys, replicateNullsAndAny⟩

/-- Source: `PhysicalProperties.cpp` `connectorHash`. -/
def connectorHash (keys : List Expr) (partitionType : ℕ) : Partitioning :=
  ⟨.partitioned, some partitionType, keys, false⟩

/-- Source: `PhysicalProperties.cpp` `gather`. -/
def gather : Partitioning := ⟨.gather, none, [], false⟩

/-- Source: `PhysicalProperties.cpp` `globalBroadcast`. -/
def globalBroadcast : Partitioning := ⟨.broadcast, none, [], false⟩

/-- Source: `PhysicalProperties.cpp` `globalReplicatedTo`. -/
def globalReplicatedTo (consumer : Partitioning) : Partitioning :=
  if consumer.kind = .gather then gather else globalBroadcast

/-- Source: `PhysicalProperties.cpp` `coLocates`. -/
def coLocates (p : Partitioning) (columns : List Expr) : Bool :=
  p.kind = .partitioned && p.keys ≠ [] && p.keys.all (· ∈ columns)

/-- Same kind, connector function, replication and keys in order.
Source: `PhysicalProperties.cpp` `sameClassAs`. -/
def sameClassAs (p q : Partitioning) : Bool :=
  p.kind = q.kind && p.partitionType = q.partitionType &&
    p.replicateNullsAndAny = q.replicateNullsAndAny && p.keys = q.keys

end Partitioning

/-! ### Pairs of a list -/

/-- The pairs of a list, each element with the later ones. -/
def laterPairs {α : Type*} : List α → List (α × α)
  | [] => []
  | a :: rest => rest.map (a, ·) ++ laterPairs rest

/-- A later element of an ordered list is paired with an earlier one. -/
lemma mem_laterPairs {α : Type*} {R : α → α → Prop} {a b : α} (hab : ¬ R b a) (hne : a ≠ b) :
    ∀ {l : List α}, l.Pairwise R → a ∈ l → b ∈ l → (a, b) ∈ laterPairs l
  | [], _, ha, _ => absurd ha List.not_mem_nil
  | c :: l, hl, ha, hb => by
    obtain ⟨hc, hl⟩ := List.pairwise_cons.mp hl
    rw [laterPairs, List.mem_append]
    rcases List.mem_cons.mp ha with rfl | ha'
    · left
      exact List.mem_map_of_mem ((List.mem_cons.mp hb).resolve_left fun h => hne h.symm)
    · right
      rcases List.mem_cons.mp hb with rfl | hb'
      · exact absurd (hc a ha') hab
      · exact mem_laterPairs hab hne hl ha' hb'

/-- Both elements of a pair are in the list. -/
lemma mem_of_mem_laterPairs {α : Type*} {p : α × α} :
    ∀ {l : List α}, p ∈ laterPairs l → p.1 ∈ l ∧ p.2 ∈ l
  | [], h => absurd h List.not_mem_nil
  | c :: l, h => by
    rw [laterPairs, List.mem_append] at h
    rcases h with h | h
    · obtain ⟨b, hb, rfl⟩ := List.mem_map.mp h
      exact ⟨List.mem_cons_self, List.mem_cons_of_mem _ hb⟩
    · obtain ⟨h₁, h₂⟩ := mem_of_mem_laterPairs h
      exact ⟨List.mem_cons_of_mem _ h₁, List.mem_cons_of_mem _ h₂⟩

/-- A relation that holds along the list holds of its pairs. -/
lemma rel_of_mem_laterPairs {α : Type*} {R : α → α → Prop} {p : α × α} :
    ∀ {l : List α}, l.Pairwise R → p ∈ laterPairs l → R p.1 p.2
  | [], _, h => absurd h List.not_mem_nil
  | c :: l, hl, h => by
    obtain ⟨hc, hl⟩ := List.pairwise_cons.mp hl
    rw [laterPairs, List.mem_append] at h
    rcases h with h | h
    · obtain ⟨b, hb, rfl⟩ := List.mem_map.mp h
      exact hc b hb
    · exact rel_of_mem_laterPairs hl h

/-! ### Edges -/

/-- A hyperedge of a join cluster. The propositional fields are the checks of the constructors.
Source: `JoinEdge.h` `JoinEdge`. -/
structure JoinEdge where
  leftEndpoints : RelationSet
  rightEndpoints : RelationSet
  leftEligibility : RelationSet
  rightEligibility : RelationSet
  leftKeys : List Expr := []
  rightKeys : List Expr := []
  filter : List Expr := []
  joinType : JoinType
  nullAware : Bool := false
  nullAsValue : Bool := false
  outputColumns : List Column := []
  sourceColumns : List Column := []
  isUnnest : Bool := false
  leftEndpoints_nonempty : leftEndpoints.Nonempty := by decide
  rightEndpoints_nonempty : rightEndpoints.Nonempty := by decide
  endpoints_disjoint : Disjoint leftEndpoints rightEndpoints := by decide
  eligibility_disjoint : Disjoint leftEligibility rightEligibility := by decide
  leftEndpoints_subset : leftEndpoints ⊆ leftEligibility := by decide
  rightEndpoints_subset : rightEndpoints ⊆ rightEligibility := by decide
  keys_length : leftKeys.length = rightKeys.length := by decide
  outputs_length : outputColumns.length = sourceColumns.length := by decide
  keys_nonempty : isUnnest = false → leftKeys ≠ [] := by decide
  inner_filter : joinType = .inner → filter = [] := by decide
  inner_plain : joinType = .inner → nullAware = false ∧ nullAsValue = false := by decide
  unnest_shape : isUnnest = true → joinType = .inner ∧ leftKeys = [] ∧
    leftEligibility = leftEndpoints ∧ rightEligibility = rightEndpoints := by decide

namespace JoinEdge

lemma no_outputs : ([] : List Column).length = ([] : List Column).length := rfl

lemma no_filter : JoinType.inner = .inner → ([] : List Expr) = [] := fun _ => rfl

lemma no_nulls : JoinType.inner = .inner → false = false ∧ false = false := fun _ => ⟨rfl, rfl⟩

/-- An edge from the relations an Unnest reads to the Unnest's relation.
Source: `JoinEdge.h` `JoinEdge::unnest`. -/
def unnest (left right : RelationSet) (hl : left.Nonempty) (hr : right.Nonempty)
    (hd : Disjoint left right) : JoinEdge where
  leftEndpoints := left
  rightEndpoints := right
  leftEligibility := left
  rightEligibility := right
  joinType := .inner
  isUnnest := true
  leftEndpoints_nonempty := hl
  rightEndpoints_nonempty := hr
  endpoints_disjoint := hd
  eligibility_disjoint := hd
  leftEndpoints_subset := Finset.Subset.refl _
  rightEndpoints_subset := Finset.Subset.refl _
  unnest_shape := fun _ => ⟨rfl, rfl, rfl, rfl⟩

/-- The total eligibility set. Source: `JoinEdge.h` `totalEligibility`. -/
def totalEligibility (e : JoinEdge) : RelationSet := e.leftEligibility ∪ e.rightEligibility

/-- A plain inner edge: one whose equalities may be applied at any join that covers it. -/
def isPlainInner (e : JoinEdge) : Bool := !e.isUnnest && e.joinType = .inner

lemma leftEligibility_nonempty (e : JoinEdge) : e.leftEligibility.Nonempty :=
  e.leftEndpoints_nonempty.mono e.leftEndpoints_subset

lemma rightEligibility_nonempty (e : JoinEdge) : e.rightEligibility.Nonempty :=
  e.rightEndpoints_nonempty.mono e.rightEndpoints_subset

/-- The key pairs of an edge. -/
def keyPairs (e : JoinEdge) : List (Expr × Expr) := e.leftKeys.zip e.rightKeys

end JoinEdge

/-! ### The graph -/

/-- An atomic join input: its columns, the partitioning of its rows, and whether it reads a loop's
state. Source: `Relation.h` `Relation`. -/
structure Relation where
  columns : List Column
  globalPartition : Partitioning
  readsState : Bool

/-- A predicate evaluated at the lowest join that covers the relations it reads.
Source: `JoinHypergraph.h` `FilterConjunct`. -/
structure FilterConjunct where
  expr : Expr
  relations : RelationSet

/-- The hypergraph that `DPhyp` enumerates over; a relation's id is its position. The propositional
fields are the checks of `addRelation` and `addEdge`.
Source: `JoinHypergraph.h` `JoinHypergraph`. -/
structure JoinHypergraph where
  relations : List Relation
  edges : List JoinEdge
  filterConjuncts : List FilterConjunct := []
  targetColumns : List Column := []
  capacity : relations.length ≤ RelationSet.kMaxRelations := by decide
  edges_known : ∀ e ∈ edges, e.totalEligibility ⊆ Finset.range relations.length := by decide
  unnest_ordered : ∀ e ∈ edges, e.isUnnest = true →
    RelationSet.min e.leftEndpoints < RelationSet.min e.rightEndpoints := by decide

/-- An edge that splits cleanly across two sides; `leftToRight` when its left operand is in the
left one. Source: `JoinHypergraph.h` `CrossingEdge`. -/
structure CrossingEdge where
  index : ℕ
  leftToRight : Bool
  deriving DecidableEq

/-- Source: `JoinHypergraph.h` `CrossingEdges`. -/
structure CrossingEdges where
  joinEdges : List CrossingEdge
  filterEdges : List ℕ
  deriving DecidableEq

namespace JoinHypergraph

variable (g : JoinHypergraph)

/-- The ids of all relations. Source: `JoinHypergraph.h` `relationIds_`. -/
def relationIds : RelationSet := Finset.range g.relations.length

/-- The relations an Unnest edge expands. Source: `JoinHypergraph.h` `expandedRelationIds`. -/
def expandedRelationIds : RelationSet :=
  g.edges.foldl (fun ids e => if e.isUnnest then ids ∪ e.rightEndpoints else ids) ∅

/-- The relations some Unnest edge expands. -/
lemma mem_expandedRelationIds {v : ℕ} : v ∈ g.expandedRelationIds ↔
    ∃ e ∈ g.edges, e.isUnnest = true ∧ v ∈ e.rightEndpoints := by
  have key : ∀ (l : List JoinEdge) (acc : RelationSet),
      v ∈ l.foldl (fun ids e => if e.isUnnest then ids ∪ e.rightEndpoints else ids) acc ↔
        v ∈ acc ∨ ∃ e ∈ l, e.isUnnest = true ∧ v ∈ e.rightEndpoints := by
    intro l
    induction l with
    | nil => simp
    | cons e l ih =>
      intro acc
      rw [List.foldl_cons, ih, List.exists_mem_cons_iff, ← or_assoc]
      cases e.isUnnest <;> simp
  rw [expandedRelationIds, key]
  simp

/-- True when the edge is covered by the two sides together but by neither alone. -/
def crosses (e : JoinEdge) (left right : RelationSet) : Bool :=
  !(e.totalEligibility ⊆ left || e.totalEligibility ⊆ right ||
    !decide (e.totalEligibility ⊆ left ∪ right))

/-- The edge's operands lie in the sides as given. -/
def forward (e : JoinEdge) (left right : RelationSet) : Bool :=
  e.leftEligibility ⊆ left && e.rightEligibility ⊆ right

/-- The edge's operands lie in the sides exchanged. -/
def reverse (e : JoinEdge) (left right : RelationSet) : Bool :=
  e.leftEligibility ⊆ right && e.rightEligibility ⊆ left

/-- One step of the scan of `crossingEdges`. -/
def classifyEdge (left right : RelationSet) (result : CrossingEdges) (entry : JoinEdge × ℕ) :
    Option CrossingEdges :=
  if crosses entry.1 left right then
    if forward entry.1 left right || reverse entry.1 left right then
      some { result with
        joinEdges := result.joinEdges ++ [⟨entry.2, forward entry.1 left right⟩] }
    else if entry.1.isPlainInner then
      some { result with filterEdges := result.filterEdges ++ [entry.2] }
    else none
  else some result

/-- The edges that cross from one side to the other; `none` when an edge straddles the boundary and
is not an inner one. Source: `JoinHypergraph.cpp` `crossingEdges`. -/
def crossingEdges (left right : RelationSet) : Option CrossingEdges :=
  g.edges.zipIdx.foldlM (classifyEdge left right) ⟨[], []⟩

/-- The equivalence class a key pair equates within, if both keys are columns of one class.
Source: `JoinHypergraph.cpp` `canonicalKeyEdges`, `pairClass`. -/
def pairClass (pair : Expr × Expr) : Option ℕ :=
  match pair.1.asColumn, pair.2.asColumn with
  | some left, some right =>
    if left.equivalence = right.equivalence then left.equivalence else none
  | _, _ => none

/-- The classes an edge's key pairs equate within. -/
def edgeClasses (e : JoinEdge) : List ℕ := e.keyPairs.filterMap pairClass

/-- An edge is redundant when each of its key pairs is within a class an earlier edge equated. -/
def isRedundant (seenClasses : List ℕ) (e : JoinEdge) : Bool :=
  !e.leftKeys.isEmpty && e.keyPairs.all fun pair =>
    match pairClass pair with
    | some c => c ∈ seenClasses
    | none => false

/-- The scan of `canonicalKeyEdges` over indices in ascending order. -/
def keepCanonical : List ℕ → List ℕ → List ℕ
  | [], _ => []
  | index :: rest, seenClasses =>
    match g.edges[index]? with
    | none => keepCanonical rest seenClasses
    | some e =>
      if isRedundant seenClasses e then keepCanonical rest seenClasses
      else index :: keepCanonical rest (edgeClasses e ++ seenClasses)

/-- The given key edges in index order, less those whose key equalities earlier ones imply. The
check that each is a plain inner edge has been made by the caller.
Source: `JoinHypergraph.cpp` `canonicalKeyEdges`. -/
def canonicalKeyEdges (edgeIndices : List ℕ) : List ℕ :=
  g.keepCanonical (edgeIndices.insertionSort (· ≤ ·)) []

end JoinHypergraph

/-! ### Closure of equalities -/

/-- The transitive closure of equalities, given by the root of each value.
Source: `JoinHypergraph.cpp` `EquivalenceClosure`. -/
structure EquivalenceClosure (α : Type*) where
  find : α → α

namespace EquivalenceClosure

variable {α : Type*} [DecidableEq α]

/-- No equalities: every value is its own root. -/
def empty : EquivalenceClosure α := ⟨id⟩

/-- Hangs the root of `right` below the root of `left`, or the other way round where `better`
prefers the root of `right`. Source: `JoinHypergraph.cpp` `EquivalenceClosure::merge`. -/
def mergeBetter (closure : EquivalenceClosure α) (better : α → α → Bool) (left right : α) :
    EquivalenceClosure α :=
  let l := closure.find left
  let r := closure.find right
  if l = r then closure
  else if better r l then ⟨fun x => if closure.find x = l then r else closure.find x⟩
  else ⟨fun x => if closure.find x = r then l else closure.find x⟩

/-- `mergeBetter` without a preference. Source: `JoinHypergraph.cpp` `EquivalenceClosure::merge`. -/
def merge (closure : EquivalenceClosure α) (left right : α) : EquivalenceClosure α :=
  closure.mergeBetter (fun _ _ => false) left right

/-- Merges a list of pairs in order. -/
def mergeAll (closure : EquivalenceClosure α) (pairs : List (α × α)) : EquivalenceClosure α :=
  pairs.foldl (fun c p => c.merge p.1 p.2) closure

end EquivalenceClosure

namespace JoinHypergraph

variable (g : JoinHypergraph)

/-- The columns a subplan over `cover` can supply: those of its relations and the fresh outputs of
the edges it covers. Source: `JoinHypergraph.cpp` `coverColumns`. -/
def coverColumns (cover : RelationSet) : List Column :=
  (g.relations.zipIdx.filter (·.2 ∈ cover)).flatMap (·.1.columns) ++
    (g.edges.filter (·.totalEligibility ⊆ cover)).flatMap fun e =>
      ((e.outputColumns.zip e.sourceColumns).filter fun p => p.1 ≠ p.2).map Prod.fst

/-- A target column is the better representative; ties break on name, then id.
Source: `JoinHypergraph.cpp` `coverColumnReps`, `betterRep`. -/
def betterRep (a b : Column) : Bool :=
  if (a ∈ g.targetColumns) ≠ (b ∈ g.targetColumns) then a ∈ g.targetColumns
  else if a.name ≠ b.name then a.name < b.name
  else a.id < b.id

/-- The column pairs that the edges within `cover` make equal on every row. -/
def coverKeyPairs (cover : RelationSet) : List (Column × Column) :=
  (g.edges.filter fun e =>
      e.joinType.provesKeyEquality && decide (e.totalEligibility ⊆ cover)).flatMap fun e =>
    e.keyPairs.filterMap fun pair =>
      match pair.1.asColumn, pair.2.asColumn with
      | some left, some right =>
        if left ∈ g.coverColumns cover ∧ right ∈ g.coverColumns cover then some (left, right)
        else none
      | _, _ => none

/-- The representative of each column of `cover` in its group of columns equated within `cover`.
Source: `JoinHypergraph.cpp` `coverColumnReps`. -/
def coverColumnReps (cover : RelationSet) : Column → Column :=
  ((g.coverKeyPairs cover).foldl (fun c p => c.mergeBetter g.betterRep p.1 p.2)
    EquivalenceClosure.empty).find

/-- The pairs of columns of one relation that belong to one equivalence class, each paired with the
first of its class. Source: `JoinHypergraph.cpp` `checkEdgesEnforced`, first loop. -/
def relationPairs (columns : List Column) : List (Expr × Expr) :=
  columns.filterMap fun c =>
    match c.equivalence with
    | none => none
    | some k =>
      match columns.find? (·.equivalence = some k) with
      | some representative => some (.column representative, .column c)
      | none => none

/-- The equalities known once the edges `applied` have been applied: those inside a relation, and
the keys of the applied edges that prove them.
Source: `JoinHypergraph.cpp` `checkEdgesEnforced`. -/
def enforcedClosure (applied : ℕ → Bool) : EquivalenceClosure Expr :=
  (EquivalenceClosure.empty.mergeAll (g.relations.flatMap fun r => relationPairs r.columns)).mergeAll
    ((g.edges.zipIdx.filter fun entry => applied entry.2 && !entry.1.isUnnest &&
      entry.1.joinType.provesKeyEquality).flatMap fun entry => entry.1.keyPairs)

/-- True when an edge is enforced: a join whose keys stand for equalities through the closure of
what has been applied, any other edge by having been applied.
Source: `JoinHypergraph.cpp` `checkEdgesEnforced`, last loop. -/
def edgeEnforced (applied : ℕ → Bool) (entry : JoinEdge × ℕ) : Bool :=
  if entry.1.isUnnest || !entry.1.joinType.provesKeyEquality then applied entry.2
  else entry.1.keyPairs.all fun pair =>
    (g.enforcedClosure applied).find pair.1 = (g.enforcedClosure applied).find pair.2

/-- True when the applied edges enforce every edge of the graph; the source throws otherwise.
Source: `JoinHypergraph.cpp` `checkEdgesEnforced`. -/
def checkEdgesEnforced (applied : ℕ → Bool) : Bool :=
  g.edges.zipIdx.all (g.edgeEnforced applied)

/-- The relations of each edge, all joined to the first of them.
Source: `PlanPhysicalPass.cpp` `connectedComponents`, first loop. -/
def relationClosure : EquivalenceClosure ℕ :=
  EquivalenceClosure.empty.mergeAll <| g.edges.flatMap fun e =>
    match RelationSet.toAscending e.totalEligibility with
    | [] => []
    | representative :: rest => rest.map (representative, ·)

/-- Sets of relations closed under the total eligibility of every edge, in the order of their first
relations. Source: `PlanPhysicalPass.cpp` `connectedComponents`. -/
def connectedComponents : List RelationSet :=
  ((List.range g.relations.length).map g.relationClosure.find).eraseDups.map fun root =>
    (Finset.range g.relations.length).filter (g.relationClosure.find · = root)

end JoinHypergraph

/-! ### What the scan of the edges finds -/

namespace JoinHypergraph

variable {g : JoinHypergraph}

lemma forward_comm (e : JoinEdge) (A B : RelationSet) : forward e B A = reverse e A B := rfl

lemma crosses_comm (e : JoinEdge) (A B : RelationSet) : crosses e B A = crosses e A B := by
  unfold crosses
  rw [Finset.union_comm, Bool.or_comm (decide (e.totalEligibility ⊆ B))]

/-- Two classifications that name the same edges. -/
def SameEdges (c c' : CrossingEdges) : Prop :=
  c.joinEdges.map (·.index) = c'.joinEdges.map (·.index) ∧ c.filterEdges = c'.filterEdges

/-- Classifying an edge from the other side names the same edge in the same role. -/
lemma classifyEdge_comm {A B : RelationSet} {c c' r : CrossingEdges} {entry : JoinEdge × ℕ}
    (h : SameEdges c c') (hr : classifyEdge A B c entry = some r) :
    ∃ r', classifyEdge B A c' entry = some r' ∧ SameEdges r r' := by
  obtain ⟨hjoin, hfilter⟩ := h
  unfold classifyEdge at hr ⊢
  rw [crosses_comm, forward_comm, ← forward_comm entry.1 B A, Bool.or_comm]
  by_cases h₁ : crosses entry.1 A B = true
  · rw [if_pos h₁] at hr ⊢
    by_cases h₂ : (forward entry.1 A B || reverse entry.1 A B) = true
    · rw [if_pos h₂] at hr ⊢
      refine ⟨_, rfl, ?_⟩
      rw [← Option.some.inj hr]
      exact ⟨by simp [hjoin], hfilter⟩
    · rw [if_neg h₂] at hr ⊢
      by_cases h₃ : entry.1.isPlainInner = true
      · rw [if_pos h₃] at hr ⊢
        refine ⟨_, rfl, ?_⟩
        rw [← Option.some.inj hr]
        exact ⟨hjoin, by simp [hfilter]⟩
      · rw [if_neg h₃] at hr
        exact absurd hr (by simp)
  · rw [if_neg h₁] at hr ⊢
    exact ⟨c', rfl, Option.some.inj hr ▸ ⟨hjoin, hfilter⟩⟩

/-- Crossing edges do not depend on the order of the sides. -/
lemma crossingEdges_comm {A B : RelationSet} {c : CrossingEdges}
    (h : g.crossingEdges A B = some c) :
    ∃ c', g.crossingEdges B A = some c' ∧ SameEdges c c' := by
  suffices key : ∀ (l : List (JoinEdge × ℕ)) (a a' : CrossingEdges), SameEdges a a' →
      l.foldlM (classifyEdge A B) a = some c →
      ∃ c', l.foldlM (classifyEdge B A) a' = some c' ∧ SameEdges c c' from
    key _ _ _ ⟨rfl, rfl⟩ h
  intro l
  induction l with
  | nil =>
    intro a a' hsame h
    rw [List.foldlM_nil] at h
    exact ⟨a', rfl, Option.some.inj h ▸ hsame⟩
  | cons entry l ih =>
    intro a a' hsame h
    rw [List.foldlM_cons] at h
    obtain ⟨r, hr, h⟩ := Option.bind_eq_some_iff.mp h
    obtain ⟨r', hr', hsame'⟩ := classifyEdge_comm hsame hr
    obtain ⟨c', hc', hc⟩ := ih r r' hsame' h
    exact ⟨c', by rw [List.foldlM_cons, hr']; exact hc', hc⟩

/-- What the scan of the edges finds: the edges named are those that cross, split cleanly or not. -/
lemma foldlM_classifyEdge {A B : RelationSet} : ∀ {l : List (JoinEdge × ℕ)} {a c : CrossingEdges},
    l.foldlM (classifyEdge A B) a = some c →
    (∀ i d, ⟨i, d⟩ ∈ c.joinEdges ↔ ⟨i, d⟩ ∈ a.joinEdges ∨ ∃ e, (e, i) ∈ l ∧
      crosses e A B = true ∧ (forward e A B || reverse e A B) = true ∧ d = forward e A B) ∧
    (∀ i, i ∈ c.filterEdges ↔ i ∈ a.filterEdges ∨ ∃ e, (e, i) ∈ l ∧
      crosses e A B = true ∧ (forward e A B || reverse e A B) = false ∧
      e.isPlainInner = true) ∧
    ∀ e i, (e, i) ∈ l → crosses e A B = true → (forward e A B || reverse e A B) = false →
      e.isPlainInner = true
  | [], a, c, h => by
    rw [List.foldlM_nil] at h
    obtain rfl := Option.some.inj h
    simp
  | (e, i) :: l, a, c, h => by
    rw [List.foldlM_cons] at h
    obtain ⟨r, hr, h⟩ := Option.bind_eq_some_iff.mp h
    obtain ⟨hjoin, hfilter, hplain⟩ := foldlM_classifyEdge h
    unfold classifyEdge at hr
    split at hr
    · rename_i hcross
      split at hr
      · rename_i hclean
        obtain rfl := Option.some.inj hr
        refine ⟨fun j d => ?_, fun j => ?_, ?_⟩
        · rw [hjoin]; grind
        · rw [hfilter]; grind
        · grind
      · rename_i hclean
        split at hr
        · rename_i hinner
          obtain rfl := Option.some.inj hr
          refine ⟨fun j d => ?_, fun j => ?_, ?_⟩
          · rw [hjoin]; grind
          · rw [hfilter]; grind
          · grind
        · exact absurd hr (by simp)
    · rename_i hcross
      obtain rfl := Option.some.inj hr
      refine ⟨fun j d => ?_, fun j => ?_, ?_⟩
      · rw [hjoin]; grind
      · rw [hfilter]; grind
      · grind

/-- The scan lists join edges by ascending index. -/
lemma foldlM_classifyEdge_pairwise {A B : RelationSet} :
    ∀ {l : List JoinEdge} {n : ℕ} {a c : CrossingEdges},
      (l.zipIdx n).foldlM (classifyEdge A B) a = some c →
      a.joinEdges.Pairwise (·.index < ·.index) → (∀ x ∈ a.joinEdges, x.index < n) →
      c.joinEdges.Pairwise (·.index < ·.index)
  | [], n, a, c, h, hp, _ => by
    rw [List.zipIdx_nil, List.foldlM_nil] at h
    exact Option.some.inj h ▸ hp
  | e :: l, n, a, c, h, hp, hlt => by
    rw [List.zipIdx_cons, List.foldlM_cons] at h
    obtain ⟨r, hr, h⟩ := Option.bind_eq_some_iff.mp h
    have hkeep : ∀ x ∈ a.joinEdges, x.index < n + 1 := fun x hx => (hlt x hx).trans n.lt_succ_self
    unfold classifyEdge at hr
    split at hr
    · split at hr
      · obtain rfl := Option.some.inj hr
        refine foldlM_classifyEdge_pairwise h ?_ ?_
        · refine List.pairwise_append.mpr ⟨hp, List.pairwise_singleton _ _, fun x hx y hy => ?_⟩
          exact List.mem_singleton.mp hy ▸ hlt x hx
        · intro x hx
          rcases List.mem_append.mp hx with hx | hx
          · exact hkeep x hx
          · exact List.mem_singleton.mp hx ▸ n.lt_succ_self
      · split at hr
        · obtain rfl := Option.some.inj hr
          exact foldlM_classifyEdge_pairwise h hp hkeep
        · exact absurd hr (by simp)
    · obtain rfl := Option.some.inj hr
      exact foldlM_classifyEdge_pairwise h hp hkeep

/-- No join edge is listed twice. -/
lemma joinEdges_nodup {A B : RelationSet} {c : CrossingEdges} (h : g.crossingEdges A B = some c) :
    c.joinEdges.Nodup := by
  refine (foldlM_classifyEdge_pairwise h List.Pairwise.nil (by simp)).imp fun hlt heq => ?_
  exact lt_irrefl _ (heq ▸ hlt)

/-- An edge listed with its index stands there. -/
lemma getElem?_of_mem_zipIdx {x : JoinEdge × ℕ} (hx : x ∈ g.edges.zipIdx) :
    g.edges[x.2]? = some x.1 := by
  simpa [List.mem_zipIdx_iff_getElem?] using hx

/-- The edges that split cleanly across two sides. -/
lemma mem_joinEdges {A B : RelationSet} {c : CrossingEdges} (h : g.crossingEdges A B = some c)
    {i : ℕ} {d : Bool} : ⟨i, d⟩ ∈ c.joinEdges ↔ ∃ e, g.edges[i]? = some e ∧
      crosses e A B = true ∧ (forward e A B || reverse e A B) = true ∧ d = forward e A B := by
  rw [(foldlM_classifyEdge h).1]
  simp [List.mem_zipIdx_iff_getElem?]

/-- The edges that cross without splitting cleanly; they are plain inner ones. -/
lemma mem_filterEdges {A B : RelationSet} {c : CrossingEdges} (h : g.crossingEdges A B = some c)
    {i : ℕ} : i ∈ c.filterEdges ↔ ∃ e, g.edges[i]? = some e ∧ crosses e A B = true ∧
      (forward e A B || reverse e A B) = false ∧ e.isPlainInner = true := by
  rw [(foldlM_classifyEdge h).2.1]
  simp [List.mem_zipIdx_iff_getElem?]

/-- A crossing edge is found in one role or the other. -/
lemma mem_of_crosses {A B : RelationSet} {c : CrossingEdges} (h : g.crossingEdges A B = some c)
    {i : ℕ} {e : JoinEdge} (he : g.edges[i]? = some e) (hcross : crosses e A B = true) :
    ((∃ d, ⟨i, d⟩ ∈ c.joinEdges) ∧ (forward e A B || reverse e A B) = true) ∨
      (i ∈ c.filterEdges ∧ e.isPlainInner = true) := by
  cases hclean : forward e A B || reverse e A B with
  | true => exact Or.inl ⟨⟨_, (mem_joinEdges h).mpr ⟨e, he, hcross, hclean, rfl⟩⟩, rfl⟩
  | false =>
    have hplain := (foldlM_classifyEdge h).2.2 e i (by simp [List.mem_zipIdx_iff_getElem?, he])
      hcross hclean
    exact Or.inr ⟨(mem_filterEdges h).mpr ⟨e, he, hcross, hclean, hplain⟩, hplain⟩

end JoinHypergraph

end Verax.JoinOrder
