import Verax.JoinOrder.JoinHypergraph

/-!
# Derived inner edges

`addTransitiveInnerEdges` of `HypergraphBuilder.cpp`: from the written inner equalities between
columns of one class, it adds an edge for each pair of relations that share the class and that no
written edge equates within it. The written edges themselves are the input of the model; what the
builder guarantees of them, and the derivation relies on, is `KeysResolve`.

* `classesCovered_addTransitiveInnerEdges`: afterwards, whenever two relations have key columns of
  one class, some inner edge equates columns of that class of the two.
-/

namespace Verax.JoinOrder

namespace JoinHypergraph

variable (g : JoinHypergraph)

/-! ### The construction -/

/-- The relation a column belongs to. Join keys never read the fresh outputs of a join, so those
need no entry. Source: `HypergraphBuilder.cpp` `addLeafRelations`, `addUnnestRelations`,
`columnToLeaf`. -/
def columnToLeaf (c : Column) : Option ℕ := g.relations.findIdx? (c ∈ ·.columns)

/-- A relation with a key column of it. -/
abbrev ClassColumn := ℕ × Column

/-- What a key pair records: its class and the columns of the two relations. -/
def classEntry (pair : Expr × Expr) : Option (ℕ × ClassColumn × ClassColumn) :=
  match pair.1.asColumn, pair.2.asColumn with
  | some left, some right =>
    match left.equivalence, g.columnToLeaf left, g.columnToLeaf right with
    | some k, some r, some s => some (k, (r, left), (s, right))
    | _, _, _ => none
  | _, _ => none

/-- The written coverage per class. Source: `HypergraphBuilder.cpp` `addTransitiveInnerEdges`,
first loop. -/
def classEntries : List (ℕ × ClassColumn × ClassColumn) :=
  (g.edges.filter (·.joinType = .inner)).flatMap fun e => e.keyPairs.filterMap g.classEntry

/-- The classes in the order first seen. Source: `classOrder`. -/
def classOrder : List ℕ := (g.classEntries.map (·.1)).eraseDups

/-- The key columns recorded for a class, in the order seen. -/
def classColumns (k : ℕ) : List ClassColumn :=
  (g.classEntries.filter (·.1 = k)).flatMap fun entry => [entry.2.1, entry.2.2]

/-- One column per relation of the class, the first seen, by ascending relation.
Source: `classReps`. -/
def classReps (k : ℕ) : List ClassColumn :=
  (List.range g.relations.length).filterMap fun r => (g.classColumns k).find? (·.1 = r)

/-- A written key pair equates the two relations within the class. Source: `coveredRelationPairs`. -/
def coversPair (k r s : ℕ) : Bool :=
  g.classEntries.any fun entry => entry.1 = k &&
    (entry.2.1.1 = r && entry.2.2.1 = s || entry.2.1.1 = s && entry.2.2.1 = r)

/-- The representatives that no written key pair equates. Source: `addTransitiveInnerEdges`, second
loop. -/
def missingPairs : List (ClassColumn × ClassColumn) :=
  g.classOrder.flatMap fun k =>
    (laterPairs (g.classReps k)).filter fun p => !g.coversPair k p.1.1 p.2.1

/-- The relations an edge is derived for, in the order first seen. Source: `derivedEdges`. -/
def missingRelations : List (ℕ × ℕ) := (g.missingPairs.map fun p => (p.1.1, p.2.1)).eraseDups

/-- The keys of the edge derived for two relations. -/
def derivedKeys (rs : ℕ × ℕ) : List (ClassColumn × ClassColumn) :=
  g.missingPairs.filter fun p => p.1.1 = rs.1 && p.2.1 = rs.2

/-- The edge derived for two relations. The test always succeeds; it supplies the facts that the
edge and the graph carry. Source: `addTransitiveInnerEdges`, last loop. -/
def derivedEdge (rs : ℕ × ℕ) : Option JoinEdge :=
  if h : rs.1 ≠ rs.2 ∧ rs.1 < g.relations.length ∧ rs.2 < g.relations.length ∧
      g.derivedKeys rs ≠ [] then
    some
      { leftEndpoints := {rs.1}
        rightEndpoints := {rs.2}
        leftEligibility := {rs.1}
        rightEligibility := {rs.2}
        leftKeys := (g.derivedKeys rs).map fun p => .column p.1.2
        rightKeys := (g.derivedKeys rs).map fun p => .column p.2.2
        joinType := .inner
        leftEndpoints_nonempty := Finset.singleton_nonempty _
        rightEndpoints_nonempty := Finset.singleton_nonempty _
        endpoints_disjoint := Finset.disjoint_singleton.mpr h.1
        eligibility_disjoint := Finset.disjoint_singleton.mpr h.1
        leftEndpoints_subset := Finset.Subset.refl _
        rightEndpoints_subset := Finset.Subset.refl _
        keys_length := by simp
        outputs_length := JoinEdge.no_outputs
        keys_nonempty := fun _ => by simpa using h.2.2.2
        inner_filter := JoinEdge.no_filter
        inner_plain := JoinEdge.no_nulls
        unnest_shape := fun hun => by cases hun }
  else none

/-- Source: `addTransitiveInnerEdges`, `derivedEdges`. -/
def derivedEdges : List JoinEdge := g.missingRelations.filterMap g.derivedEdge

/-! ### Derived edges -/

variable {g}

/-- The shape of a derived edge. -/
lemma derivedEdge_eq_some {rs : ℕ × ℕ} {e : JoinEdge} (h : g.derivedEdge rs = some e) :
    (rs.1 < g.relations.length ∧ rs.2 < g.relations.length) ∧ e.leftEndpoints = {rs.1} ∧
      e.rightEndpoints = {rs.2} ∧ e.leftEligibility = {rs.1} ∧ e.rightEligibility = {rs.2} ∧
      e.isUnnest = false ∧ e.joinType = .inner ∧
      e.leftKeys = (g.derivedKeys rs).map (fun p => .column p.1.2) ∧
      e.rightKeys = (g.derivedKeys rs).map fun p => .column p.2.2 := by
  unfold derivedEdge at h
  split at h
  · rename_i hcond
    obtain rfl := Option.some.inj h
    exact ⟨⟨hcond.2.1, hcond.2.2.1⟩, rfl, rfl, rfl, rfl, rfl, rfl, rfl, rfl⟩
  · cases h

/-- The key pairs of a derived edge are the missing pairs of its relations. -/
lemma derivedEdge_keyPairs {rs : ℕ × ℕ} {e : JoinEdge} (h : g.derivedEdge rs = some e) :
    e.keyPairs = (g.derivedKeys rs).map fun p => (.column p.1.2, .column p.2.2) := by
  obtain ⟨-, -, -, -, -, -, -, hl, hr⟩ := derivedEdge_eq_some h
  rw [JoinEdge.keyPairs, hl, hr, List.zip_map']

variable (g)

/-- The graph with the derived edges. Source: `HypergraphBuilder.cpp` `addTransitiveInnerEdges`. -/
def addTransitiveInnerEdges : JoinHypergraph :=
  { g with
    edges := g.edges ++ g.derivedEdges
    edges_known := by
      intro e he
      rcases List.mem_append.mp he with he | he
      · exact g.edges_known e he
      · obtain ⟨rs, -, hrs⟩ := List.mem_filterMap.mp he
        obtain ⟨⟨hr, hs⟩, -, -, hl, hr', -⟩ := derivedEdge_eq_some hrs
        rw [JoinEdge.totalEligibility, hl, hr', Finset.union_subset_iff]
        simp [hr, hs]
    unnest_ordered := by
      intro e he hun
      rcases List.mem_append.mp he with he | he
      · exact g.unnest_ordered e he hun
      · obtain ⟨rs, -, hrs⟩ := List.mem_filterMap.mp he
        obtain ⟨-, -, -, -, -, hfalse, -⟩ := derivedEdge_eq_some hrs
        rw [hfalse] at hun
        cases hun }

/-! ### Coverage of the classes -/

/-- What the builder guarantees of the keys of the inner edges: the two columns of a key pair are
of one class, which the derivation checks, and each belongs to a relation at its end of the edge;
joins whose keys read a fresh output of another join are kept out of the graph.
Source: `HypergraphBuilder.cpp` `addInner`, `PlanPhysicalPass.cpp` `valueProducersReadInCluster`. -/
def KeysResolve : Prop :=
  ∀ e ∈ g.edges, e.isPlainInner = true → ∀ x y, (.column x, .column y) ∈ e.keyPairs →
    (∃ k, x.equivalence = some k ∧ y.equivalence = some k) ∧
      (∃ r ∈ e.leftEndpoints, g.columnToLeaf x = some r) ∧
      ∃ s ∈ e.rightEndpoints, g.columnToLeaf y = some s

/-- `x` is a key column, of relation `r` and class `k`, of some inner edge between columns. -/
structure KeyColumn (k r : ℕ) (x : Column) : Prop where
  equivalence : x.equivalence = some k
  leaf : g.columnToLeaf x = some r
  key : ∃ e ∈ g.edges, e.isPlainInner = true ∧
    ∃ y, (.column x, .column y) ∈ e.keyPairs ∨ (.column y, .column x) ∈ e.keyPairs

/-- Whenever two relations have key columns of one class, an inner edge equates columns of the
class of the two. -/
def ClassesCovered : Prop :=
  ∀ ⦃k r s x y⦄, g.KeyColumn k r x → g.KeyColumn k s y → r ≠ s →
    ∃ e ∈ g.edges, e.isPlainInner = true ∧ ∃ a b, (.column a, .column b) ∈ e.keyPairs ∧
      a.equivalence = some k ∧ b.equivalence = some k ∧
      (g.columnToLeaf a = some r ∧ g.columnToLeaf b = some s ∨
        g.columnToLeaf a = some s ∧ g.columnToLeaf b = some r)

variable {g}

/-- Key pairs are recorded with their class and relations. -/
lemma classEntry_eq_some {pair : Expr × Expr} {k r s : ℕ} {x y : Column} :
    g.classEntry pair = some (k, (r, x), (s, y)) ↔
      pair = (.column x, .column y) ∧ x.equivalence = some k ∧ g.columnToLeaf x = some r ∧
        g.columnToLeaf y = some s := by
  obtain ⟨a, b⟩ := pair
  cases a with
  | other => simp [classEntry, Expr.asColumn]
  | column a =>
    cases b with
    | other => simp [classEntry, Expr.asColumn]
    | column b =>
      rcases hk : a.equivalence with - | k'
      · simp only [classEntry, Expr.asColumn, hk, reduceCtorEq, Prod.mk.injEq,
          Expr.column.injEq, false_iff]
        rintro ⟨⟨rfl, -⟩, h, -⟩
        simp [hk] at h
      rcases hr : g.columnToLeaf a with - | r'
      · simp only [classEntry, Expr.asColumn, hk, hr, reduceCtorEq, Prod.mk.injEq,
          Expr.column.injEq, false_iff]
        rintro ⟨⟨rfl, -⟩, -, h, -⟩
        simp [hr] at h
      rcases hs : g.columnToLeaf b with - | s'
      · simp only [classEntry, Expr.asColumn, hk, hr, hs, reduceCtorEq, Prod.mk.injEq,
          Expr.column.injEq, false_iff]
        rintro ⟨⟨-, rfl⟩, -, -, h⟩
        simp [hs] at h
      · simp only [classEntry, Expr.asColumn, hk, hr, hs, Option.some.injEq, Prod.mk.injEq,
          Expr.column.injEq]
        constructor
        · rintro ⟨rfl, ⟨rfl, rfl⟩, rfl, rfl⟩
          exact ⟨⟨rfl, rfl⟩, hk, hr, hs⟩
        · rintro ⟨⟨rfl, rfl⟩, h₁, h₂, h₃⟩
          simp_all

/-- An entry comes from a key pair of an inner edge. -/
lemma mem_classEntries {k r s : ℕ} {x y : Column} :
    (k, (r, x), (s, y)) ∈ g.classEntries ↔
      ∃ e ∈ g.edges, e.joinType = .inner ∧ (.column x, .column y) ∈ e.keyPairs ∧
        x.equivalence = some k ∧ g.columnToLeaf x = some r ∧ g.columnToLeaf y = some s := by
  unfold classEntries
  simp only [List.mem_flatMap, List.mem_filter, decide_eq_true_eq, List.mem_filterMap,
    classEntry_eq_some]
  constructor
  · rintro ⟨e, ⟨he, hinner⟩, pair, hpair, rfl, hrest⟩
    exact ⟨e, he, hinner, hpair, hrest⟩
  · rintro ⟨e, he, hinner, hpair, hrest⟩
    exact ⟨e, ⟨he, hinner⟩, _, hpair, rfl, hrest⟩

/-- An edge with keys is no Unnest edge. -/
lemma isPlainInner_of_keyPair {e : JoinEdge} {p : Expr × Expr} (hinner : e.joinType = .inner)
    (hp : p ∈ e.keyPairs) : e.isPlainInner = true := by
  cases hun : e.isUnnest with
  | false => simp [JoinEdge.isPlainInner, hun, hinner]
  | true =>
    have := (e.unnest_shape hun).2.1
    simp [JoinEdge.keyPairs, this] at hp

/-- The columns recorded for a class are of that class, and belong to their relation. -/
lemma KeysResolve.classColumn (h : g.KeysResolve) {k r : ℕ} {x : Column}
    (hx : (r, x) ∈ g.classColumns k) : x.equivalence = some k ∧ g.columnToLeaf x = some r := by
  obtain ⟨⟨k', ⟨r₁, a⟩, ⟨r₂, b⟩⟩, hfilter, hmem⟩ := List.mem_flatMap.mp hx
  obtain ⟨hentry, hk⟩ := List.mem_filter.mp hfilter
  obtain rfl : k' = k := by simpa using hk
  obtain ⟨e, he, hinner, hpair, hclass, hr₁, hr₂⟩ := mem_classEntries.mp hentry
  obtain ⟨⟨j, hj, hj'⟩, -⟩ := h e he (isPlainInner_of_keyPair hinner hpair) _ _ hpair
  simp only [List.mem_cons, Prod.mk.injEq, List.not_mem_nil, or_false] at hmem
  rcases hmem with ⟨rfl, rfl⟩ | ⟨rfl, rfl⟩
  · exact ⟨hclass, hr₁⟩
  · exact ⟨by rw [hj', ← hj, hclass], hr₂⟩

/-- Key columns of a class are recorded. -/
lemma mem_classColumns {e : JoinEdge} (he : e ∈ g.edges) (hinner : e.joinType = .inner)
    {x y : Column} {k r s : ℕ} (hpair : (.column x, .column y) ∈ e.keyPairs)
    (hk : x.equivalence = some k) (hr : g.columnToLeaf x = some r)
    (hs : g.columnToLeaf y = some s) :
    (r, x) ∈ g.classColumns k ∧ (s, y) ∈ g.classColumns k := by
  have hentry := mem_classEntries.mpr ⟨e, he, hinner, hpair, hk, hr, hs⟩
  have hfilter : (k, (r, x), (s, y)) ∈ g.classEntries.filter (·.1 = k) :=
    List.mem_filter.mpr ⟨hentry, by simp⟩
  exact ⟨List.mem_flatMap.mpr ⟨_, hfilter, by simp⟩, List.mem_flatMap.mpr ⟨_, hfilter, by simp⟩⟩

/-- Representatives are recorded columns of the class. -/
lemma mem_classColumns_of_rep {k : ℕ} {c : ClassColumn} (h : c ∈ g.classReps k) :
    c ∈ g.classColumns k := by
  obtain ⟨r, -, hr⟩ := List.mem_filterMap.mp h
  exact List.mem_of_find?_eq_some hr

/-- Representatives are listed by ascending relation. -/
lemma classReps_pairwise (k : ℕ) : (g.classReps k).Pairwise fun c d => c.1 < d.1 := by
  refine List.pairwise_filterMap.mpr (List.pairwise_lt_range.imp fun {r s} hlt c hc d hd => ?_)
  have hr : c.1 = r := by simpa using List.find?_some hc
  have hs : d.1 = s := by simpa using List.find?_some hd
  rwa [hr, hs]

/-- A relation with a recorded column has a representative. -/
lemma exists_rep {k r : ℕ} {x : Column} (hr : r < g.relations.length)
    (hx : (r, x) ∈ g.classColumns k) : ∃ a, (r, a) ∈ g.classReps k := by
  have hsome : ((g.classColumns k).find? (·.1 = r)).isSome := by
    rw [List.find?_isSome]
    exact ⟨_, hx, by simp⟩
  obtain ⟨⟨r', a⟩, hfind⟩ := Option.isSome_iff_exists.mp hsome
  obtain rfl : r' = r := by simpa using List.find?_some hfind
  exact ⟨a, List.mem_filterMap.mpr ⟨_, List.mem_range.mpr hr, hfind⟩⟩

/-- The relation of a column is in the graph. -/
lemma lt_of_columnToLeaf {x : Column} {r : ℕ} (h : g.columnToLeaf x = some r) :
    ∃ hr : r < g.relations.length, x ∈ (g.relations[r]).columns := by
  obtain ⟨hr, hx, -⟩ := List.findIdx?_eq_some_iff_getElem.mp h
  exact ⟨hr, by simpa using hx⟩

/-- The classes with a recorded column are listed. -/
lemma mem_classOrder {k : ℕ} {c : ClassColumn} (h : c ∈ g.classColumns k) : k ∈ g.classOrder := by
  obtain ⟨entry, hentry, -⟩ := List.mem_flatMap.mp h
  obtain ⟨hentry, hk⟩ := List.mem_filter.mp hentry
  rw [classOrder, List.mem_eraseDups]
  exact List.mem_map.mpr ⟨entry, hentry, by simpa using hk⟩

/-- Two relations of a class, in ascending order, are equated by a written or a derived key pair. -/
lemma KeysResolve.equated (h : g.KeysResolve) {k r s : ℕ} {x y : Column} (hlt : r < s)
    (hx : (r, x) ∈ g.classColumns k) (hy : (s, y) ∈ g.classColumns k) :
    ∃ e ∈ g.addTransitiveInnerEdges.edges, e.isPlainInner = true ∧
      ∃ a b, (.column a, .column b) ∈ e.keyPairs ∧ a.equivalence = some k ∧
        b.equivalence = some k ∧ (g.columnToLeaf a = some r ∧ g.columnToLeaf b = some s ∨
          g.columnToLeaf a = some s ∧ g.columnToLeaf b = some r) := by
  obtain ⟨hr, -⟩ := lt_of_columnToLeaf (h.classColumn hx).2
  obtain ⟨hs, -⟩ := lt_of_columnToLeaf (h.classColumn hy).2
  by_cases hcover : g.coversPair k r s = true
  · -- A written key pair equates the two.
    obtain ⟨⟨k', ⟨r₁, a⟩, ⟨r₂, b⟩⟩, hentry, hcond⟩ := List.any_eq_true.mp hcover
    obtain ⟨e, he, hinner, hpair, hk, ha, hb⟩ := mem_classEntries.mp hentry
    have hplain := isPlainInner_of_keyPair hinner hpair
    obtain ⟨⟨j, hj, hj'⟩, -⟩ := h e he hplain _ _ hpair
    simp only [Bool.and_eq_true, decide_eq_true_eq, Bool.or_eq_true] at hcond
    obtain ⟨rfl, hsides⟩ := hcond
    refine ⟨e, List.mem_append_left _ he, hplain, a, b, hpair, hk, by rw [hj', ← hj, hk], ?_⟩
    rcases hsides with ⟨rfl, rfl⟩ | ⟨rfl, rfl⟩
    · exact Or.inl ⟨ha, hb⟩
    · exact Or.inr ⟨ha, hb⟩
  · -- No written one does, so the pair of representatives is missing.
    obtain ⟨a, ha⟩ := exists_rep hr hx
    obtain ⟨b, hb⟩ := exists_rep hs hy
    have hlater : ((r, a), (s, b)) ∈ laterPairs (g.classReps k) :=
      mem_laterPairs (R := fun c d => c.1 < d.1) (by simpa using hlt.le)
        (fun heq => hlt.ne (congrArg Prod.fst heq)) (classReps_pairwise k) ha hb
    have hmissing : ((r, a), (s, b)) ∈ g.missingPairs :=
      List.mem_flatMap.mpr ⟨k, mem_classOrder hx, List.mem_filter.mpr ⟨hlater, by simpa using hcover⟩⟩
    have hkeys : ((r, a), (s, b)) ∈ g.derivedKeys (r, s) :=
      List.mem_filter.mpr ⟨hmissing, by simp⟩
    have hrel : (r, s) ∈ g.missingRelations := by
      rw [missingRelations, List.mem_eraseDups]
      exact List.mem_map.mpr ⟨_, hmissing, rfl⟩
    obtain ⟨e, he⟩ : ∃ e, g.derivedEdge (r, s) = some e := by
      unfold derivedEdge
      rw [dif_pos ⟨hlt.ne, hr, hs, List.ne_nil_of_mem hkeys⟩]
      exact ⟨_, rfl⟩
    obtain ⟨ha', ha''⟩ := h.classColumn (mem_classColumns_of_rep ha)
    obtain ⟨hb', hb''⟩ := h.classColumn (mem_classColumns_of_rep hb)
    obtain ⟨-, -, -, -, -, hun, hinner, -⟩ := derivedEdge_eq_some he
    refine ⟨e, List.mem_append_right _ (List.mem_filterMap.mpr ⟨_, hrel, he⟩),
      by simp [JoinEdge.isPlainInner, hun, hinner], a, b, ?_, ha', hb', Or.inl ⟨ha'', hb''⟩⟩
    rw [derivedEdge_keyPairs he]
    exact List.mem_map.mpr ⟨_, hkeys, rfl⟩

/-- The keys of a derived edge are recorded columns of the class. -/
lemma mem_classColumns_of_derived {rs : ℕ × ℕ} {e : JoinEdge} (h : g.derivedEdge rs = some e)
    {x y : Column} (hpair : (.column x, .column y) ∈ e.keyPairs) :
    ∃ k, (rs.1, x) ∈ g.classColumns k ∧ (rs.2, y) ∈ g.classColumns k := by
  rw [derivedEdge_keyPairs h] at hpair
  obtain ⟨⟨⟨r, a⟩, ⟨s, b⟩⟩, hp, heq⟩ := List.mem_map.mp hpair
  simp only [Prod.mk.injEq, Expr.column.injEq] at heq
  obtain ⟨rfl, rfl⟩ := heq
  obtain ⟨hp, hrs⟩ := List.mem_filter.mp hp
  simp only [Bool.and_eq_true, decide_eq_true_eq] at hrs
  obtain ⟨k, -, hp⟩ := List.mem_flatMap.mp hp
  obtain ⟨h₁, h₂⟩ := mem_of_mem_laterPairs (List.mem_filter.mp hp).1
  rw [← hrs.1, ← hrs.2]
  exact ⟨k, mem_classColumns_of_rep h₁, mem_classColumns_of_rep h₂⟩

/-- Derived edges resolve their keys too. -/
lemma KeysResolve.addTransitiveInnerEdges (h : g.KeysResolve) :
    g.addTransitiveInnerEdges.KeysResolve := by
  intro e he hplain x y hpair
  rcases List.mem_append.mp he with he | he
  · exact h e he hplain x y hpair
  · obtain ⟨rs, -, hrs⟩ := List.mem_filterMap.mp he
    obtain ⟨-, hl, hr, -⟩ := derivedEdge_eq_some hrs
    obtain ⟨k, hx, hy⟩ := mem_classColumns_of_derived hrs hpair
    obtain ⟨hxk, hxr⟩ := h.classColumn hx
    obtain ⟨hyk, hyr⟩ := h.classColumn hy
    exact ⟨⟨k, hxk, hyk⟩, ⟨rs.1, by simp [hl], hxr⟩, rs.2, by simp [hr], hyr⟩

/-- A key column of the extended graph is recorded for its class. -/
lemma KeysResolve.keyColumn (h : g.KeysResolve) {k r : ℕ} {x : Column}
    (hx : g.addTransitiveInnerEdges.KeyColumn k r x) : (r, x) ∈ g.classColumns k := by
  have hleaf : g.columnToLeaf x = some r := hx.leaf
  obtain ⟨e, he, hplain, y, hpair⟩ := hx.key
  rcases List.mem_append.mp he with he | he
  · have hinner : e.joinType = .inner := by
      simp only [JoinEdge.isPlainInner, Bool.and_eq_true, decide_eq_true_eq] at hplain
      exact hplain.2
    rcases hpair with hpair | hpair
    · obtain ⟨-, -, s, -, hs⟩ := h e he hplain _ _ hpair
      exact (mem_classColumns he hinner hpair hx.equivalence hleaf hs).1
    · obtain ⟨⟨j, hj, hj'⟩, ⟨s, -, hs⟩, -⟩ := h e he hplain _ _ hpair
      refine (mem_classColumns he hinner hpair ?_ hs hleaf).2
      rw [hj, ← hj', hx.equivalence]
  · obtain ⟨rs, -, hrs⟩ := List.mem_filterMap.mp he
    have key : ∀ {j q}, (q, x) ∈ g.classColumns j → (r, x) ∈ g.classColumns k := by
      intro j q hq
      obtain ⟨hk, hr⟩ := h.classColumn hq
      obtain rfl : j = k := Option.some.inj (hk.symm.trans hx.equivalence)
      obtain rfl : q = r := Option.some.inj (hr.symm.trans hleaf)
      exact hq
    rcases hpair with hpair | hpair
    · obtain ⟨j, hj, -⟩ := mem_classColumns_of_derived hrs hpair
      exact key hj
    · obtain ⟨j, -, hj⟩ := mem_classColumns_of_derived hrs hpair
      exact key hj

/-- **The derived edges complete the closure of the inner equalities between relations.** -/
theorem classesCovered_addTransitiveInnerEdges (h : g.KeysResolve) :
    g.addTransitiveInnerEdges.ClassesCovered := by
  intro k r s x y hx hy hne
  rcases lt_or_gt_of_ne hne with hlt | hlt
  · exact h.equated hlt (h.keyColumn hx) (h.keyColumn hy)
  · obtain ⟨e, he, hplain, a, b, hpair, ha, hb, hsides⟩ :=
      h.equated hlt (h.keyColumn hy) (h.keyColumn hx)
    exact ⟨e, he, hplain, a, b, hpair, ha, hb, hsides.symm⟩

end JoinHypergraph

end Verax.JoinOrder
