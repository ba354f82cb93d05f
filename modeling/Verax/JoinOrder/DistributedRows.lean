import Verax.JoinOrder.Distribution

/-!
# Plans that run on many tasks

A plan whose joins have their inputs where they need them computes, on all tasks together, rows that
the plan may compute, and they lie as its partitioning says.

* `joined_delivered`: one join.
* `runs_delivered`: a plan.
-/

set_option linter.unusedSectionVars false

namespace Verax.JoinOrder

open Verax.Lib Verax.Lib.Spreads Enumerator

variable {F σ : Type} [Add F] [BEq F] [LT F] [DecidableLT F]

variable {env : Env F σ} {k : KeyFactory} {κ τ : Type} {M : Meaning κ τ} [DecidableEq κ]

/-! ### Keys of the inputs -/

section keys

variable {shape : Shape} {edge : JoinEdge} {left right : MemoOp F}

/-- Each edge that a candidate joins on lies across its inputs. -/
lemma Oriented.across (h : Oriented env.graph edge shape left right) {e : JoinEdge}
    (he : e ∈ shapeEdges env shape edge) : e ∈ env.graph.edges ∧
      (e.leftEligibility ⊆ left.cover ∧ e.rightEligibility ⊆ right.cover ∨
        ¬ e.leftEligibility ⊆ left.cover ∧ e.rightEligibility ⊆ left.cover ∧
          e.leftEligibility ⊆ right.cover) := by
  have hexchanged : e.leftEligibility ⊆ right.cover → ¬ e.leftEligibility ⊆ left.cover := by
    intro hright hleft
    obtain ⟨v, hv⟩ := e.leftEligibility_nonempty
    exact Finset.disjoint_left.mp h.disjoint (hleft hv) (hright hv)
  rcases List.mem_cons.mp he with rfl | he
  · refine ⟨List.mem_of_getElem? h.edge_eq, ?_⟩
    have horientation := h.orientation
    generalize shape.joinType = joinType at horientation
    generalize shape.reversedAnti = reversedAnti at horientation
    cases horientation with
    | asWritten hleft hright => exact .inl ⟨hleft, hright⟩
    | exchanged hleft hright _ => exact .inr ⟨hexchanged hleft, hright, hleft⟩
    | reversedAnti hleft hright _ => exact .inr ⟨hexchanged hleft, hright, hleft⟩
  · obtain ⟨i, hi, he⟩ := List.mem_filterMap.mp he
    obtain ⟨e', he', hacross⟩ := h.keyEdges.across i hi
    obtain rfl := Option.some.inj (he'.symm.trans he)
    refine ⟨List.mem_of_getElem? he, ?_⟩
    simp only [JoinHypergraph.forward, JoinHypergraph.reverse, Bool.or_eq_true, Bool.and_eq_true,
      decide_eq_true_eq] at hacross
    rcases hacross with hacross | ⟨hright, hleft⟩
    · exact .inl hacross
    · exact .inr ⟨hexchanged hright, hleft, hright⟩

/-- The edge reaches beyond the left input. -/
lemma Oriented.not_subset_left (h : Oriented env.graph edge shape left right) :
    ¬ edge.totalEligibility ⊆ left.cover := by
  intro hsub
  obtain ⟨v, hv⟩ := edge.rightEligibility_nonempty
  obtain ⟨w, hw⟩ := edge.leftEligibility_nonempty
  rcases (h.across List.mem_cons_self).2 with ⟨-, hright⟩ | ⟨hnot, -⟩
  · exact Finset.disjoint_left.mp h.disjoint (hsub (Finset.mem_union_right _ hv)) (hright hv)
  · exact hnot (Finset.subset_union_left.trans hsub)

/-- The edge reaches beyond the right input. -/
lemma Oriented.not_subset_right (h : Oriented env.graph edge shape left right) :
    ¬ edge.totalEligibility ⊆ right.cover := by
  intro hsub
  obtain ⟨v, hv⟩ := edge.rightEligibility_nonempty
  obtain ⟨w, hw⟩ := edge.leftEligibility_nonempty
  rcases (h.across List.mem_cons_self).2 with ⟨hleft, -⟩ | ⟨-, hright, -⟩
  · exact Finset.disjoint_left.mp h.disjoint (hleft hw) (hsub (Finset.mem_union_left _ hw))
  · exact Finset.disjoint_left.mp h.disjoint (hright hv) (hsub (Finset.mem_union_right _ hv))

/-- The key columns of a cover are its representatives. -/
lemma keysRead_coverSchema (hids : env.graph.IdsDistinct) {cover : RelationSet} {keys : List Expr}
    (h : KeysRead env.graph cover keys) :
    KeysRead env.graph cover (keysInCoverSchema env keys cover) := by
  intro key hkey c hc
  obtain ⟨key', hkey', rfl⟩ := List.mem_map.mp hkey
  cases key' with
  | other id columns => exact h _ hkey' c hc
  | column d =>
      have hd : d ∈ env.graph.coverColumns cover := h _ hkey' d List.mem_cons_self
      simp only [if_pos hd, Expr.columns, List.mem_singleton] at hc
      rw [hc]
      exact (JoinHypergraph.coverColumnReps_least hids cover d).1.mem.mp hd

variable (hlaws : Lawful env k M) (h : Oriented env.graph edge shape left right)
include hlaws h

lemma keysRead_left : KeysRead env.graph left.cover (leftCoverKeys env shape edge left) := by
  refine keysRead_coverSchema hlaws.idsDistinct fun key hkey => ?_
  obtain ⟨e, he, hkey⟩ := List.mem_flatMap.mp hkey
  obtain ⟨hmem, ⟨hleft, -⟩ | ⟨hnot, hright, -⟩⟩ := h.across he
  · rw [if_pos hleft] at hkey
    exact (hlaws.leftKeys e hmem).mono hleft key hkey
  · rw [if_neg hnot] at hkey
    exact (hlaws.rightKeys e hmem).mono hright key hkey

lemma keysRead_right :
    KeysRead env.graph right.cover (rightCoverKeys env shape edge left right) := by
  refine keysRead_coverSchema hlaws.idsDistinct fun key hkey => ?_
  obtain ⟨e, he, hkey⟩ := List.mem_flatMap.mp hkey
  obtain ⟨hmem, ⟨hleft, hright⟩ | ⟨hnot, -, hright⟩⟩ := h.across he
  · rw [if_pos hleft] at hkey
    exact (hlaws.rightKeys e hmem).mono hright key hkey
  · rw [if_neg hnot] at hkey
    exact (hlaws.leftKeys e hmem).mono hright key hkey

omit hlaws h in
/-- Keys come in pairs. -/
lemma coverKeys_length :
    (leftCoverKeys env shape edge left).length =
      (rightCoverKeys env shape edge left right).length := by
  have hpairs : ∀ es : List JoinEdge,
      (orientedKeys left es).1.length = (orientedKeys left es).2.length := by
    intro es
    simp only [orientedKeys, List.length_flatMap]
    refine congrArg List.sum (List.map_congr_left fun e _ => ?_)
    split
    · exact e.keys_length
    · exact e.keys_length.symm
  simp only [leftCoverKeys, rightCoverKeys, keysInCoverSchema, List.length_map]
  exact hpairs _

end keys

/-! ### Keys of the output -/

section output

variable {shape : Shape} {edge : JoinEdge} {left right : MemoOp F}

/-- What a subplan outputs are columns of its cover. -/
lemma coverOutputColumns_subset (hids : env.graph.IdsDistinct) {cover : RelationSet} {c : Column}
    (hc : c ∈ env.graph.coverOutputColumns k.unnestExpressions cover) :
    c ∈ env.graph.coverColumns cover := by
  obtain ⟨d, hd, -, rfl⟩ := JoinHypergraph.mem_coverOutputColumns.mp hc
  exact (JoinHypergraph.coverColumnReps_least hids cover d).1.mem.mp hd

/-- The partitioning recorded for a join is that of its output. -/
lemma shapePartitioning_follows (hlaws : Lawful env k M)
    (h : Oriented env.graph edge shape left right)
    (hmeets : Meets env shape edge (leftCoverKeys env shape edge left)
      (rightCoverKeys env shape edge left right) left.outputPartitioning
      right.outputPartitioning) :
    Follows env k (emittedJoinType shape.joinType shape.reversedAnti) left.outputPartitioning
      right.outputPartitioning (leftCoverKeys env shape edge left)
      (rightCoverKeys env shape edge left right)
      (env.graph.coverOutputColumns k.unnestExpressions shape.combined) edge
      (shapePartitioning env shape edge left right) := by
  rw [shapePartitioning, hlaws.outputPartitioning, joinOutputPartitioning, h.edge_eq]
  exact hmeets.follows

/-- The keys of an output are columns of its cover. -/
lemma Follows.keysRead {joinType : JoinType} {p q out : Partitioning} {lk rk : List Expr}
    {outputColumns : Finset Column} {cover : RelationSet}
    (h : Follows env k joinType p q lk rk outputColumns edge out)
    (houtput : ∀ c ∈ outputColumns, c ∈ env.graph.coverColumns cover)
    (hp : KeysRead env.graph cover p.keys) (hq : KeysRead env.graph cover q.keys) :
    KeysRead env.graph cover out.keys := by
  have hretained : ∀ source other : Partitioning, KeysRead env.graph cover source.keys →
      KeysRead env.graph cover (retained env k joinType source other outputColumns).keys := by
    intro source other hsource
    have hcases : retained env k joinType source other outputColumns = .unspecified ∨ _ :=
      retained_cases
    rcases hcases with heq | ⟨-, heq⟩ | ⟨-, partitionType, keys, -, hkeys, heq⟩
    · rw [heq]
      exact fun key hkey => absurd hkey List.not_mem_nil
    · rwa [heq]
    · rw [heq]
      intro key hkey
      obtain ⟨key', hkey', hkeys⟩ := exists_of_forall₂ hkeys hkey
      rcases hkeys with rfl | ⟨-, hkeys⟩
      · exact hsource key hkey'
      · obtain ⟨c, i, d, -, rfl, -, -, hd⟩ := mem_of_survivingEquiKey hkeys
        intro c' hc'
        rw [List.mem_singleton.mp hc']
        exact houtput d hd
  cases h with
  | gathered => exact fun key hkey => absurd hkey List.not_mem_nil
  | replicated => exact hp
  | left => exact hretained p q hp
  | right => exact hretained q p hq
  | full =>
      have hcases : fullJoinPartitioning env k p q lk rk outputColumns edge = .unspecified ∨ _ :=
        fullJoinPartitioning_cases
      rcases hcases with heq | ⟨-, -, -, -, -, partitionType, keys, -, hkeys, heq⟩
      · rw [heq]
        exact fun key hkey => absurd hkey List.not_mem_nil
      · rw [heq]
        intro key hkey c hc
        obtain ⟨pair, -, hkeys⟩ := exists_of_forall₂ hkeys hkey
        obtain ⟨x, y, -, -, -, -, hcontains, -⟩ := coalescedKey_eq_some hkeys
        have hmem := List.all_eq_true.mp hcontains c hc
        exact houtput c (of_decide_eq_true hmem)

/-- The keys of a plan's partitioning are columns of its cover. -/
lemma Laid.keysRead (hlaws : Lawful env k M) {op : MemoOp F} (h : Laid env op) :
    KeysRead env.graph op.cover op.outputPartitioning.keys := by
  induction h with
  | leaf hp => exact (hlaws.leafKeys _ _ hp).1
  | unnest _ _ ih => exact ih.mono Finset.subset_union_left
  | exchange _ _ _ hkeys => exact hkeys
  | join horiented _ _ hmeets ihl ihr =>
      have hfollows := shapePartitioning_follows hlaws horiented hmeets
      refine hfollows.keysRead (fun c hc => ?_) (ihl.mono Finset.subset_union_left)
        (ihr.mono Finset.subset_union_right)
      rw [horiented.combined] at hc
      exact coverOutputColumns_subset hlaws.idsDistinct hc

/-- A partitioning carried over a join replicates no row. -/
lemma Follows.plain {joinType : JoinType} {p q out : Partitioning} {lk rk : List Expr}
    {outputColumns : Finset Column}
    (h : Follows env k joinType p q lk rk outputColumns edge out) :
    out.replicateNullsAndAny = false := by
  have hretained : ∀ source other : Partitioning, source.replicateNullsAndAny = false →
      (retained env k joinType source other outputColumns).replicateNullsAndAny = false := by
    intro source other hsource
    have hcases : retained env k joinType source other outputColumns = .unspecified ∨ _ :=
      retained_cases
    rcases hcases with heq | ⟨-, heq⟩ | ⟨-, partitionType, keys, -, -, heq⟩
    · rw [heq]
      rfl
    · rwa [heq]
    · rw [heq]
      exact hsource
  cases h with
  | gathered => rfl
  | replicated _ _ hplain => exact hplain
  | left _ hplain _ => exact hretained p q hplain
  | right _ hplain _ => exact hretained q p hplain
  | full =>
      have hcases : fullJoinPartitioning env k p q lk rk outputColumns edge = .unspecified ∨ _ :=
        fullJoinPartitioning_cases
      rcases hcases with heq | ⟨-, -, -, -, -, partitionType, keys, -, -, heq⟩
      · rw [heq]
        rfl
      · rw [heq]

end output

/-! ### Partitionings carried over a join -/

section carried

variable [Fintype τ] [DecidableEq τ] {joinType : JoinType} {outputColumns : Finset Column}
  {S : τ → Multiset (Row κ)}

/-- Rows that lie where a partitioning on keys places them. -/
lemma delivered_of_task {p : Partitioning} (hkind : p.kind = .partitioned)
    (hplain : p.replicateNullsAndAny = false) (h : ∀ t, ∀ row ∈ S t, M.task p row = t) :
    Delivered M p (gathered S) S := by
  rw [delivered_partitioned hkind hplain]
  exact funext (eq_filter_of_placed h)

variable (hlaws : Lawful env k M)
include hlaws

/-- Rows made of those of an input lie as its partitioning says, as far as the output has its
keys. -/
lemma delivered_retained {source other : Partitioning} {cover : RelationSet}
    {A : Multiset (Row κ)} {L : τ → Multiset (Row κ)} (hdelivered : Delivered M source A L)
    (hkind : source.kind ≠ .broadcast) (hplain : source.replicateNullsAndAny = false)
    (hreads : KeysRead env.graph cover source.keys)
    (hmade : ∀ t, ∀ row ∈ S t, ∃ a ∈ L t, ∀ c ∈ env.graph.coverColumns cover, row c = a c)
    (hclass : joinType = .inner → ∀ t, ∀ row ∈ S t, ∀ (c d : Column) (i : ℕ),
      .column c ∈ source.keys → c.equivalence = some i → d ∈ k.classColumns i → d ∈ outputColumns →
        row d = row c) :
    Delivered M (retained env k joinType source other outputColumns) (gathered S) S := by
  have hcases : retained env k joinType source other outputColumns = .unspecified ∨ _ :=
    retained_cases
  rcases hcases with heq | ⟨hne, heq⟩ | ⟨hpartitioned, partitionType, keys, htype, hkeys, heq⟩
  · rw [heq]
    exact delivered_unspecified.mpr rfl
  · rw [heq]
    cases hsource : source.kind with
    | partitioned => exact absurd hsource hne
    | broadcast => exact absurd hsource hkind
    | unspecified | arbitrary => simp only [Delivered, hsource]
    | gather =>
        have hzero : ∀ t, t ≠ M.home → S t = 0 := by
          intro t ht
          refine Multiset.eq_zero_of_forall_notMem fun row hrow => ?_
          obtain ⟨a, ha, -⟩ := hmade t row hrow
          rw [hdelivered.away hsource ht] at ha
          exact Multiset.notMem_zero a ha
        rw [delivered_gather hsource, gathered_of_home hzero]
        funext t
        by_cases ht : t = M.home
        · rw [if_pos ht, ht]
        · rw [if_neg ht, hzero t ht]
  · rw [heq]
    refine delivered_of_task hpartitioned hplain fun t row hrow => ?_
    obtain ⟨a, ha, hcolumns⟩ := hmade t row hrow
    have hvalues : keys.map (M.value · row) = source.keys.map (M.value · a) := by
      have hsource : ∀ key ∈ source.keys, M.value key row = M.value key a :=
        fun key hkey => M.value_congr fun c hc => hcolumns c (hreads key hkey c hc)
      refine map_eq_of_forall₂ hkeys fun key hkey key' hkey' => ?_
      rw [← hsource key hkey]
      rcases hkey' with rfl | ⟨hinner, hkey'⟩
      · rfl
      · obtain ⟨c, i, d, rfl, rfl, hi, hd, hout⟩ := mem_of_survivingEquiKey hkey'
        exact hclass hinner t row hrow c d i hkey hi hd hout
    have hplace : M.place partitionType (source.keys.map (M.value · a)) = M.task source a := by
      rcases htype with rfl | htype
      · rfl
      · exact (hlaws.place _ _ _ _ htype).1
    rw [← hdelivered.task_eq hpartitioned hplain ha, ← hplace, ← hvalues]
    rfl

/-- Rows of a full join lie where coalesced keys place them: each has the values of the keys of a
row of one of its inputs. -/
lemma delivered_full {p q : Partitioning} {lk rk : List Expr} {edge : JoinEdge}
    {A B : Multiset (Row κ)} {L R : τ → Multiset (Row κ)} (hL : Delivered M p A L)
    (hR : Delivered M q B R)
    (hvalues : ∀ t, ∀ row ∈ S t,
      (∃ a ∈ L t, ∀ pair ∈ p.keys.zip q.keys, ∀ key,
        coalescedKey env k edge lk rk outputColumns pair = some key →
          M.value key row = M.value pair.1 a) ∨
      ∃ b ∈ R t, ∀ pair ∈ p.keys.zip q.keys, ∀ key,
        coalescedKey env k edge lk rk outputColumns pair = some key →
          M.value key row = M.value pair.2 b) :
    Delivered M (fullJoinPartitioning env k p q lk rk outputColumns edge) (gathered S) S := by
  have hcases : fullJoinPartitioning env k p q lk rk outputColumns edge = .unspecified ∨ _ :=
    fullJoinPartitioning_cases
  rcases hcases with heq |
    ⟨hp, hq, hplain, hplain', hlength, partitionType, keys, htype, hkeys, heq⟩
  · rw [heq]
    exact delivered_unspecified.mpr rfl
  · rw [heq]
    refine delivered_of_task rfl rfl fun t row hrow => ?_
    rcases hvalues t row hrow with ⟨a, ha, hvalue⟩ | ⟨b, hb, hvalue⟩
    · have hmap : keys.map (M.value · row) = p.keys.map (M.value · a) := by
        rw [map_eq_of_forall₂ hkeys fun pair hpair key hkey => hvalue pair hpair key hkey,
          ← Function.comp_def (M.value · a) Prod.fst, ← List.map_map,
          List.map_fst_zip hlength.le]
      rw [← hL.task_eq hp hplain ha, Meaning.task, Meaning.task, hmap,
        (hlaws.place _ _ _ _ htype).1]
    · have hmap : keys.map (M.value · row) = q.keys.map (M.value · b) := by
        rw [map_eq_of_forall₂ hkeys fun pair hpair key hkey => hvalue pair hpair key hkey,
          ← Function.comp_def (M.value · b) Prod.snd, ← List.map_map,
          List.map_snd_zip hlength.ge]
      rw [← hR.task_eq hq hplain' hb, Meaning.task, Meaning.task, hmap,
        (hlaws.place _ _ _ _ htype).2]

end carried

/-! ### A join on each task -/

section joined

variable [Fintype τ] [DecidableEq τ] {shape : Shape} {edge : JoinEdge} {left right : MemoOp F}
  {A B : Multiset (Row κ)} {L R O : τ → Multiset (Row κ)}

section nullAware

variable (hlaws : Lawful env k M) (h : Oriented env.graph edge shape left right)
  (haware : edge.nullAware = true)
include hlaws h haware

/-- A null-aware edge is joined on alone, and its filter is the join's. -/
lemma nullAware_alone : edge.joinType ≠ .inner ∧ shapeEdges env shape edge = [edge] := by
  have hedge := hlaws.nullAware edge (List.mem_of_getElem? h.edge_eq) haware
  have hinner : edge.joinType ≠ .inner := by
    intro hinner
    rcases hedge.joinType with htype | htype
    · rw [hinner] at htype
      cases htype
    · rw [hinner] at htype
      cases htype
  have hkeyEdges : shape.keyEdges = [] := by
    by_contra hne
    exact hinner (h.keyEdges.inner hne)
  rw [shapeEdges, hkeyEdges]
  exact ⟨hinner, rfl⟩

/-- The join of a null-aware edge has one key. -/
lemma nullAware_spec : ∃ key key', leftCoverKeys env shape edge left = [key] ∧
    rightCoverKeys env shape edge left right = [key'] ∧
      (shapeSpec env M shape edge left right).NullAware (M.value key) (M.value key') := by
  have hedge := hlaws.nullAware edge (List.mem_of_getElem? h.edge_eq) haware
  obtain ⟨x, hx⟩ := hedge.leftKey
  obtain ⟨y, hy⟩ := hedge.rightKey
  have hkeys : ∃ key key', leftCoverKeys env shape edge left = [key] ∧
      rightCoverKeys env shape edge left right = [key'] := by
    unfold leftCoverKeys rightCoverKeys
    rw [(nullAware_alone hlaws h haware).2]
    simp only [orientedKeys, List.flatMap_cons, List.flatMap_nil, List.append_nil]
    split
    · rw [hx, hy]
      exact ⟨_, _, rfl, rfl⟩
    · rw [hx, hy]
      exact ⟨_, _, rfl, rfl⟩
  obtain ⟨key, key', hkey, hkey'⟩ := hkeys
  refine ⟨key, key', hkey, hkey', ?_, ?_, haware, hedge.nullAsValue⟩
  · change (leftCoverKeys env shape edge left).map M.value = _
    rw [hkey]
    rfl
  · change (rightCoverKeys env shape edge left right).map M.value = _
    rw [hkey']
    rfl

/-- Where a null-aware edge has no filter, every pair of rows passes it. -/
lemma nullAware_passes (hfilter : edge.filter = []) (a b : Row κ) :
    (shapeSpec env M shape edge left right).passesFilter a b = true := by
  have hnone : (shapeSpec env M shape edge left right).filter = [] := by
    change (DefaultCostModel.appliedConjuncts env.graph edge left.cover right.cover).map _ = []
    rw [DefaultCostModel.appliedConjuncts, if_pos (nullAware_alone hlaws h haware).1, hfilter]
    rfl
  rw [JoinSpec.passesFilter, hnone]
  rfl

/-- The rows that are looked for are those of the input that the edge reaches to the left. -/
lemma probe_left (htype : runType shape.joinType shape.reversedAnti = .leftSemiProject ∨
    runType shape.joinType shape.reversedAnti = .anti) :
    edge.leftEligibility ⊆ left.cover ∧
      leftCoverKeys env shape edge left = keysInCoverSchema env edge.leftKeys left.cover := by
  have hedge := hlaws.nullAware edge (List.mem_of_getElem? h.edge_eq) haware
  have hsub : edge.leftEligibility ⊆ left.cover := by
    have horientation := h.orientation
    generalize shape.joinType = joinType at horientation htype
    generalize shape.reversedAnti = reversedAnti at horientation htype
    cases horientation with
    | asWritten hl _ => exact hl
    | exchanged _ _ hswap =>
        exfalso
        rcases hedge.joinType with hanti | hsemi
        · rw [hanti] at hswap
          cases hswap
        · rw [hsemi] at hswap
          obtain rfl := Option.some.inj hswap
          rcases htype with htype | htype <;> cases htype
    | reversedAnti => rcases htype with htype | htype <;> cases htype
  refine ⟨hsub, ?_⟩
  rw [leftCoverKeys, (nullAware_alone hlaws h haware).2]
  simp [orientedKeys, hsub]

/-- See `probe_left`. -/
lemma probe_right (htype : runType shape.joinType shape.reversedAnti = .rightSemiProject ∨
    runType shape.joinType shape.reversedAnti = .rightAnti) :
    edge.leftEligibility ⊆ right.cover ∧
      rightCoverKeys env shape edge left right =
        keysInCoverSchema env edge.leftKeys right.cover := by
  have hedge := hlaws.nullAware edge (List.mem_of_getElem? h.edge_eq) haware
  have hsub : edge.leftEligibility ⊆ right.cover := by
    have horientation := h.orientation
    generalize shape.joinType = joinType at horientation htype
    generalize shape.reversedAnti = reversedAnti at horientation htype
    cases horientation with
    | asWritten =>
        exfalso
        rcases hedge.joinType with hanti | hsemi
        · rcases htype with htype | htype <;> cases hanti.symm.trans htype
        · rcases htype with htype | htype <;> cases hsemi.symm.trans htype
    | exchanged hl => exact hl
    | reversedAnti hl => exact hl
  have hnot : ¬ edge.leftEligibility ⊆ left.cover := by
    intro hleft
    obtain ⟨v, hv⟩ := edge.leftEligibility_nonempty
    exact Finset.disjoint_left.mp h.disjoint (hleft hv) (hsub hv)
  refine ⟨hsub, ?_⟩
  rw [rightCoverKeys, (nullAware_alone hlaws h haware).2]
  simp [orientedKeys, hnot]

end nullAware

/-- Two partition functions place keys alike. -/
lemma place_eq (hlaws : Lawful env k M) {left right : Option ℕ} (h : left = right ∨
    haveCommonJoinPartitionType env left right = true) (keys : List (Option κ)) :
    M.place right keys = M.place left keys := by
  rcases h with rfl | h
  · rfl
  · obtain ⟨common, hcommon⟩ : ∃ common, commonJoinPartitionType env left right = some common := by
      unfold haveCommonJoinPartitionType at h
      unfold commonJoinPartitionType
      cases left with
      | none =>
          cases right with
          | none => exact ⟨_, rfl⟩
          | some right => cases h
      | some left =>
          cases right with
          | none => cases h
          | some right =>
              simp only at h ⊢
              cases htype : env.copartitionedType left right with
              | none =>
                  rw [htype] at h
                  cases h
              | some common =>
                  rw [htype] at h
                  simp only [Bool.and_eq_true, decide_eq_true_eq] at h
                  exact ⟨some common, if_pos h⟩
    obtain ⟨hleft, hright⟩ := hlaws.place _ _ _ keys hcommon
    exact hright.symm.trans hleft

/-- Rows partitioned on join keys lie where the values of those keys say. -/
lemma PartitionedOn.place_eq {p : Partitioning} {lk : List Expr} {positions : List ℕ}
    (h : PartitionedOn env p lk positions) {row : Row κ}
    (hsame : ∀ key ∈ p.keys, ∀ joinKey ∈ lk, env.sameOrEqual joinKey key = true →
      M.value joinKey row = M.value key row) :
    M.place p.partitionType (positions.map fun i => ((lk.map (M.value · row))[i]?).join) =
      M.task p row := by
  refine congrArg (M.place p.partitionType) (map_eq_of_forall₂ h.keys fun key hkey i hi => ?_)
  obtain ⟨joinKey, hjoinKey, heq⟩ := hi
  rw [List.getElem?_map, hjoinKey]
  rcases heq with rfl | heq
  · rfl
  · exact hsame key hkey joinKey (List.mem_of_getElem? hjoinKey) heq

variable (hlaws : Lawful env k M) (hrows : RowsLawful env k M)
  (horiented : Oriented env.graph edge shape left right) (hleft : Laid env left)
  (hright : Laid env right) (hA : A ∈ Yields M env left) (hB : B ∈ Yields M env right)
  (hL : Delivered M left.outputPartitioning A L) (hR : Delivered M right.outputPartitioning B R)
include hlaws hrows horiented hleft hright hA hB hL hR

/-- Inputs partitioned alike lie where their join keys say. -/
lemma placed_of_partitionedOn {positions : List ℕ}
    (hp : PartitionedOn env left.outputPartitioning (leftCoverKeys env shape edge left) positions)
    (hq : PartitionedOn env right.outputPartitioning (rightCoverKeys env shape edge left right)
      positions)
    (htype : left.outputPartitioning.partitionType = right.outputPartitioning.partitionType ∨
      haveCommonJoinPartitionType env left.outputPartitioning.partitionType
        right.outputPartitioning.partitionType = true) :
    (shapeSpec env M shape edge left right).Placed
      (fun values => M.place left.outputPartitioning.partitionType
        (positions.map fun i => (values[i]?).join)) L R := by
  constructor
  · intro t a ha
    have hvalues : (shapeSpec env M shape edge left right).leftKeys.map (· a) =
        (leftCoverKeys env shape edge left).map (M.value · a) := List.map_map ..
    simp only [hvalues]
    rw [hp.place_eq, hL.task_eq hp.kind hp.plain ha]
    intro key hkey joinKey hjoinKey hsame
    exact (hrows.leftKeys edge shape left right horiented hleft A hA a (hL.subset ha) key hkey
      joinKey hjoinKey (.inr hsame)).symm
  · intro t b hb
    have hvalues : (shapeSpec env M shape edge left right).rightKeys.map (· b) =
        (rightCoverKeys env shape edge left right).map (M.value · b) := List.map_map ..
    simp only [hvalues]
    rw [← place_eq hlaws htype, hq.place_eq, hR.task_eq hq.kind hq.plain hb]
    intro key hkey joinKey hjoinKey hsame
    exact (hrows.rightKeys edge shape left right horiented hright B hB b (hR.subset hb) key hkey
      joinKey hjoinKey (.inr hsame)).symm

omit hlaws hrows horiented hleft hright hA hB in
/-- Tasks without rows of either input join nothing. -/
lemma outcomes_away {J : JoinSpec (Row κ) κ} (hp : left.outputPartitioning.kind = .gather)
    (hq : right.outputPartitioning.kind = .gather) (hO : ∀ t, O t ∈ J.outcomes (L t) (R t)) {t : τ}
    (ht : t ≠ M.home) : O t = 0 := by
  have hOt := hO t
  rw [hL.away hp ht, hR.away hq ht, JoinSpec.outcomes_zero] at hOt
  exact hOt

/-- **A join on each task computes the join**, unless every task has all rows of both inputs. -/
lemma outcomes_gathered
    (hmeets : Meets env shape edge (leftCoverKeys env shape edge left)
      (rightCoverKeys env shape edge left right) left.outputPartitioning right.outputPartitioning)
    (hne : ¬ (left.outputPartitioning.kind = .broadcast ∧
      right.outputPartitioning.kind = .broadcast))
    (hO : ∀ t, O t ∈ (shapeSpec env M shape edge left right).outcomes (L t) (R t)) :
    gathered O ∈ (shapeSpec env M shape edge left right).outcomes A B := by
  have hNonempty : Nonempty τ := ⟨M.home⟩
  cases hmeets with
  | gathered hp hq =>
      have hhome := hO M.home
      rw [hL.home hp, hR.home hq] at hhome
      rwa [gathered_of_home fun t ht => outcomes_away hL hR hp hq hO ht]
  | replicated hp hq _ => exact absurd ⟨hp, hq⟩ hne
  | rightReplicated hp hplain hq hbuild hreversed =>
      rw [(delivered_broadcast hq).mp hR] at hO
      rw [← hL.gathered_eq hp hplain]
      refine JoinSpec.gathered_of_rightWhole ?_ hO
      change (runType shape.joinType shape.reversedAnti).canBroadcastBuild = true
      rw [hreversed]
      exact hbuild
  | leftReplicated hp hq hplain hprobe hreversed =>
      rw [(delivered_broadcast hp).mp hL] at hO
      rw [← hR.gathered_eq hq hplain]
      refine JoinSpec.gathered_of_leftWhole ?_ hO
      change (runType shape.joinType shape.reversedAnti).canBroadcastProbe = true
      rw [hreversed]
      exact hprobe
  | copartitioned haware hp hq htype =>
      rw [← hL.gathered_eq (by rw [hp.kind]; decide) hp.plain,
        ← hR.gathered_eq (by rw [hq.kind]; decide) hq.plain]
      have hplaced := placed_of_partitionedOn hlaws hrows horiented hleft hright hA hB hL hR hp hq
        htype
      refine JoinSpec.gathered_of_together hplaced ?_ haware hO
      change ((leftCoverKeys env shape edge left).map M.value).length =
        ((rightCoverKeys env shape edge left right).map M.value).length
      rw [List.length_map, List.length_map, coverKeys_length]
  | existenceRight haware htype hp hq =>
      obtain ⟨key, key', hkey, hkey', hspec⟩ := nullAware_spec (M := M) hlaws horiented haware
      rw [hp, hkey] at hL
      rw [hq, hkey'] at hR
      have hshared := (delivered_shared rfl rfl).mp hR
      have hkind : (Partitioning.hash [key] false).kind ≠ .broadcast := by
        simp [Partitioning.hash]
      have hplaced : ∀ t, ∀ a ∈ L t, M.place none [M.value key a] = t :=
        fun t a ha => hL.task_eq rfl rfl ha
      rw [← hL.gathered_eq hkind rfl]
      obtain ⟨hprobe, hprobeKeys⟩ := probe_left hlaws horiented haware htype
      refine JoinSpec.gathered_of_rightShared hspec htype hplaced
        ⟨hshared.subset, fun t b hb hasks => ?_, hshared.nonempty⟩ (fun t a ha hnull => ?_) hO
      · exact hshared.shown t b hb (hasks.imp id fun hnull => ⟨key', List.mem_cons_self, hnull⟩)
      · refine nullAware_passes hlaws horiented haware (by_contra fun hfilter => ?_) a
        refine hrows.nullAware edge (List.mem_of_getElem? horiented.edge_eq) haware hfilter left
          hleft hprobe A hA a (hL.subset ha) key ?_ hnull
        rw [← hprobeKeys, hkey]
        exact List.mem_cons_self
  | existenceLeft haware htype hp hq =>
      obtain ⟨key, key', hkey, hkey', hspec⟩ := nullAware_spec (M := M) hlaws horiented haware
      rw [hp, hkey] at hL
      rw [hq, hkey'] at hR
      have hshared := (delivered_shared rfl rfl).mp hL
      have hkind : (Partitioning.hash [key'] false).kind ≠ .broadcast := by
        simp [Partitioning.hash]
      have hplaced : ∀ t, ∀ b ∈ R t, M.place none [M.value key' b] = t :=
        fun t b hb => hR.task_eq rfl rfl hb
      rw [← hR.gathered_eq hkind rfl]
      obtain ⟨hprobe, hprobeKeys⟩ := probe_right hlaws horiented haware htype
      refine JoinSpec.gathered_of_leftShared hspec htype hplaced
        ⟨hshared.subset, fun t a ha hasks => ?_, hshared.nonempty⟩ (fun t b hb hnull => ?_) hO
      · exact hshared.shown t a ha (hasks.imp id fun hnull => ⟨key, List.mem_cons_self, hnull⟩)
      · refine fun a => nullAware_passes hlaws horiented haware (by_contra fun hfilter => ?_) a b
        refine hrows.nullAware edge (List.mem_of_getElem? horiented.edge_eq) haware hfilter right
          hright hprobe B hB b (hR.subset hb) key' ?_ hnull
        rw [← hprobeKeys, hkey']
        exact List.mem_cons_self

omit hrows hleft hright hA hB hL hR in
/-- The value of a coalesced key: that of a join key on the left row, or of the other on the right
row. -/
lemma value_coalescedKey {outputColumns : Finset Column} {pair : Expr × Expr} {key : Expr}
    (hkey : coalescedKey env k edge (leftCoverKeys env shape edge left)
      (rightCoverKeys env shape edge left right) outputColumns pair = some key) :
    ∃ x y, (x, y) ∈ (leftCoverKeys env shape edge left).zip
        (rightCoverKeys env shape edge left right) ∧
      env.sameOrEqual pair.1 x = true ∧ env.sameOrEqual pair.2 y = true ∧
      M.value x (fun _ => none) = none ∧ M.value y (fun _ => none) = none ∧
      ∀ (l r : Option (Row κ)) (m : Truth),
        (∀ v w, M.value x (fun c => l.bind (· c)) = some v →
          M.value y (fun c => r.bind (· c)) = some w → v = w) →
        M.value key (joinRow env.graph M edge shape.edgeIndex left.cover right.cover l r m) =
          (M.value x fun c => l.bind (· c)).or (M.value y fun c => r.bind (· c)) := by
  obtain ⟨x, y, hpair, hx, hy, hcoalesces, -, rfl⟩ := coalescedKey_eq_some hkey
  obtain ⟨hnullx, hnully⟩ := hlaws.nulls _ _ hcoalesces
  rw [M.value_substitute] at hnullx hnully
  refine ⟨x, y, hpair, hx, hy, hnullx, hnully, fun l r m hagree => ?_⟩
  have hedge := List.mem_of_getElem? horiented.edge_eq
  have hleftValue := value_substitute_left (M := M) (i := shape.edgeIndex) (l := l) (r := r)
    (m := m) hlaws.columnsApart hedge horiented.not_subset_left horiented.not_subset_right
    (keysRead_left hlaws horiented x (List.of_mem_zip hpair).1)
  have hrightValue := value_substitute_right (M := M) (i := shape.edgeIndex) (l := l) (r := r)
    (m := m) hlaws.columnsApart horiented.disjoint hedge horiented.not_subset_left
    horiented.not_subset_right (keysRead_right hlaws horiented y (List.of_mem_zip hpair).2)
  rw [hlaws.coalesced _ _ _ hcoalesces (by rwa [hleftValue, hrightValue]), hleftValue, hrightValue]

/-- A row of a full join has the coalesced keys of a row it is made of. -/
lemma full_values {outputColumns : Finset Column}
    (hfull : emittedJoinType shape.joinType shape.reversedAnti = .full)
    (hO : ∀ t, O t ∈ (shapeSpec env M shape edge left right).outcomes (L t) (R t)) {t : τ}
    {row : Row κ} (hrow : row ∈ O t) :
    (∃ a ∈ L t, ∀ pair ∈ left.outputPartitioning.keys.zip right.outputPartitioning.keys, ∀ key,
      coalescedKey env k edge (leftCoverKeys env shape edge left)
          (rightCoverKeys env shape edge left right) outputColumns pair = some key →
        M.value key row = M.value pair.1 a) ∨
    ∃ b ∈ R t, ∀ pair ∈ left.outputPartitioning.keys.zip right.outputPartitioning.keys, ∀ key,
      coalescedKey env k edge (leftCoverKeys env shape edge left)
          (rightCoverKeys env shape edge left right) outputColumns pair = some key →
        M.value key row = M.value pair.2 b := by
  have hspec : (shapeSpec env M shape edge left right).joinType = .full := by
    change runType shape.joinType shape.reversedAnti = .full
    unfold emittedJoinType at hfull
    unfold runType
    split at hfull
    · cases hfull
    · rename_i hreversed
      rw [if_neg hreversed, hfull]
  have hleftSame : ∀ a ∈ L t, ∀ pair ∈
      left.outputPartitioning.keys.zip right.outputPartitioning.keys, ∀ x ∈
        leftCoverKeys env shape edge left, env.sameOrEqual pair.1 x = true →
          M.value pair.1 a = M.value x a := by
    intro a ha pair hpair x hx hsame
    obtain ⟨key, key'⟩ := pair
    exact hrows.leftKeys edge shape left right horiented hleft A hA a (hL.subset ha) key
      (List.of_mem_zip hpair).1 x hx (.inl hsame)
  have hrightSame : ∀ b ∈ R t, ∀ pair ∈
      left.outputPartitioning.keys.zip right.outputPartitioning.keys, ∀ y ∈
        rightCoverKeys env shape edge left right, env.sameOrEqual pair.2 y = true →
          M.value pair.2 b = M.value y b := by
    intro b hb pair hpair y hy hsame
    obtain ⟨key, key'⟩ := pair
    exact hrows.rightKeys edge shape left right horiented hright B hB b (hR.subset hb) key'
      (List.of_mem_zip hpair).2 y hy (.inl hsame)
  rcases JoinSpec.exists_of_full hspec (hO t) hrow with
    ⟨a, ha, b, hb, hon, rfl⟩ | ⟨a, ha, rfl⟩ | ⟨b, hb, rfl⟩
  · refine .inl ⟨a, ha, fun pair hpair key hkey => ?_⟩
    obtain ⟨x, y, hxy, hx, -, -, -, hvalue⟩ := value_coalescedKey (M := M) hlaws horiented hkey
    have hkeys : ((leftCoverKeys env shape edge left).map M.value).map (· a) =
        ((rightCoverKeys env shape edge left right).map M.value).map (· b) :=
      JoinSpec.keys_eq_of_keysEqual (J := shapeSpec env M shape edge left right)
        (by
          change ((leftCoverKeys env shape edge left).map M.value).length =
            ((rightCoverKeys env shape edge left right).map M.value).length
          rw [List.length_map, List.length_map, coverKeys_length])
        (Bool.and_eq_true_iff.mp hon).1
    have hequal : M.value x a = M.value y b := by
      rw [List.map_map, List.map_map, ← List.forall₂_eq_eq_eq, List.forall₂_map_left_iff,
        List.forall₂_map_right_iff] at hkeys
      exact List.forall₂_zip hkeys hxy
    rw [show (shapeSpec env M shape edge left right).output (some a) (some b) none = _ from rfl]
    refine (hvalue (some a) (some b) none fun v w hv hw => ?_).trans ?_
    · exact Option.some.inj (hv.symm.trans (hequal.trans hw))
    · rw [hleftSame a ha pair hpair x (List.of_mem_zip hxy).1 hx]
      change (M.value x a).or (M.value y b) = M.value x a
      rw [← hequal, Option.or_self]
  · refine .inl ⟨a, ha, fun pair hpair key hkey => ?_⟩
    obtain ⟨x, y, hxy, hx, -, -, hnull, hvalue⟩ := value_coalescedKey (M := M) hlaws horiented hkey
    refine (hvalue (some a) none none fun v w _ hw => ?_).trans ?_
    · rw [show M.value y (fun c => (none : Option (Row κ)).bind (· c)) = none from hnull] at hw
      cases hw
    · rw [hleftSame a ha pair hpair x (List.of_mem_zip hxy).1 hx]
      change (M.value x a).or (M.value y fun _ => none) = M.value x a
      rw [hnull, Option.or_none]
  · refine .inr ⟨b, hb, fun pair hpair key hkey => ?_⟩
    obtain ⟨x, y, hxy, -, hy, hnull, -, hvalue⟩ := value_coalescedKey (M := M) hlaws horiented hkey
    refine (hvalue none (some b) none fun v w hv _ => ?_).trans ?_
    · rw [show M.value x (fun c => (none : Option (Row κ)).bind (· c)) = none from hnull] at hv
      cases hv
    · rw [hrightSame b hb pair hpair y (List.of_mem_zip hxy).2 hy]
      change (M.value x fun _ => none).or (M.value y b) = M.value y b
      rw [hnull, Option.none_or]

omit hlaws hrows hleft hright hA hB hL hR in
/-- An output row has the columns of the row of a side that the join preserves. -/
lemma made_of_left (hpreserved : (emittedJoinType shape.joinType
    shape.reversedAnti).preservedSides.left = true)
    (hO : ∀ t, O t ∈ (shapeSpec env M shape edge left right).outcomes (L t) (R t)) {t : τ}
    {row : Row κ} (hrow : row ∈ O t) :
    ∃ a ∈ L t, ∀ c ∈ env.graph.coverColumns left.cover, row c = a c := by
  obtain ⟨l, r, m, hmakes, rfl⟩ := JoinSpec.exists_makes (hO t) hrow
  rw [preservedSides_emitted] at hpreserved
  obtain ⟨a, rfl⟩ := Option.isSome_iff_exists.mp (hmakes.preservesLeft hpreserved)
  exact ⟨a, hmakes.left a rfl, fun c hc => joinRow_left hc⟩

omit hrows hleft hright hA hB hL hR in
/-- An output row has the columns of the row of a side that the join preserves. -/
lemma made_of_right (hpreserved : (emittedJoinType shape.joinType
    shape.reversedAnti).preservedSides.right = true)
    (hO : ∀ t, O t ∈ (shapeSpec env M shape edge left right).outcomes (L t) (R t)) {t : τ}
    {row : Row κ} (hrow : row ∈ O t) :
    ∃ b ∈ R t, ∀ c ∈ env.graph.coverColumns right.cover, row c = b c := by
  obtain ⟨l, r, m, hmakes, rfl⟩ := JoinSpec.exists_makes (hO t) hrow
  rw [preservedSides_emitted] at hpreserved
  obtain ⟨b, rfl⟩ := Option.isSome_iff_exists.mp (hmakes.preservesRight hpreserved)
  exact ⟨b, hmakes.right b rfl, fun c hc => joinRow_right hlaws.columnsApart horiented.disjoint hc⟩

/-- **A join on each task computes the join**, and its rows lie as its partitioning says. -/
theorem joined_delivered {c : Cost F}
    (hmeets : Meets env shape edge (leftCoverKeys env shape edge left)
      (rightCoverKeys env shape edge left right) left.outputPartitioning right.outputPartitioning)
    (hO : ∀ t, O t ∈ (shapeSpec env M shape edge left right).outcomes (L t) (R t)) :
    ∃ W ∈ Yields M env (shapeOp env c shape edge left right),
      Delivered M (shapePartitioning env shape edge left right) W fun t => (O t).filter fun row =>
        keepsRow env.graph M (conjunctsAbove env.graph edge left.cover right.cover)
          shape.filterEdges row := by
  have hyields : ∀ W ∈ (shapeSpec env M shape edge left right).outcomes A B,
      (W.filter fun row => keepsRow env.graph M
        (conjunctsAbove env.graph edge left.cover right.cover) shape.filterEdges row) ∈
        Yields M env (shapeOp env c shape edge left right) :=
    fun W hW => ⟨edge, horiented.edge_eq, A, hA, B, hB, W, hW, rfl⟩
  by_cases hboth : left.outputPartitioning.kind = .broadcast ∧
      right.outputPartitioning.kind = .broadcast
  · have hout : shapePartitioning env shape edge left right = left.outputPartitioning := by
      rw [shapePartitioning, hlaws.outputPartitioning, joinOutputPartitioning, horiented.edge_eq]
      simp [outputPartitioning, hboth]
    rw [(delivered_broadcast hboth.1).mp hL, (delivered_broadcast hboth.2).mp hR] at hO
    have hsubsingleton : ((shapeSpec env M shape edge left right).outcomes A B).Subsingleton := by
      refine JoinSpec.outcomes_subsingleton _ fun hcounts => ?_
      refine hrows.counted edge shape left right horiented hleft ?_ A hA
      have hcounts : (runType shape.joinType shape.reversedAnti).counts = true := hcounts
      unfold runType at hcounts
      split at hcounts
      · cases hcounts
      · exact hcounts
    refine ⟨_, hyields (O M.home) (hO M.home), ?_⟩
    rw [hout, delivered_broadcast hboth.1]
    funext t
    rw [hsubsingleton (hO t) (hO M.home)]
  · have hgathered :=
      outcomes_gathered hlaws hrows horiented hleft hright hA hB hL hR hmeets hboth hO
    refine ⟨_, hyields _ hgathered, ?_⟩
    rw [← gathered_filter]
    -- A row that is kept is one of the plan's.
    have hclass : emittedJoinType shape.joinType shape.reversedAnti = .inner →
        ∀ t, ∀ row ∈ (O t).filter fun row => keepsRow env.graph M
          (conjunctsAbove env.graph edge left.cover right.cover) shape.filterEdges row,
        ∀ (c d : Column) (i : ℕ),
          .column c ∈ left.outputPartitioning.keys ∨ .column c ∈ right.outputPartitioning.keys →
          c.equivalence = some i → d ∈ k.classColumns i →
          d ∈ env.graph.coverOutputColumns k.unnestExpressions shape.combined → row d = row c := by
      intro hinner t row hrow
      refine hrows.surviving c edge shape left right horiented (.join horiented hleft hright hmeets)
        hinner _ (hyields _ hgathered) row ?_
      rw [← gathered_filter]
      exact mem_gathered.mpr ⟨t, hrow⟩
    have hfollows := shapePartitioning_follows hlaws horiented hmeets
    generalize shapePartitioning env shape edge left right = out at hfollows ⊢
    cases hfollows with
    | gathered hp hq =>
        have hzero : ∀ t, t ≠ M.home → (O t).filter (fun row => keepsRow env.graph M
            (conjunctsAbove env.graph edge left.cover right.cover) shape.filterEdges row) = 0 := by
          intro t ht
          rw [outcomes_away hL hR hp hq hO ht, Multiset.filter_zero]
        rw [delivered_gather rfl, gathered_of_home hzero]
        funext t
        by_cases ht : t = M.home
        · rw [if_pos ht, ht]
        · rw [if_neg ht, hzero t ht]
    | replicated hp hq _ => exact absurd ⟨hp, hq⟩ hboth
    | left hkind hplain hpreserved =>
        exact delivered_retained hlaws hL hkind hplain (hleft.keysRead hlaws)
          (fun t row hrow => made_of_left horiented hpreserved hO (Multiset.mem_of_mem_filter hrow))
          fun hinner t row hrow c d i hc => hclass hinner t row hrow c d i (.inl hc)
    | right hkind hplain hpreserved =>
        exact delivered_retained hlaws hR hkind hplain (hright.keysRead hlaws)
          (fun t row hrow =>
            made_of_right hlaws horiented hpreserved hO (Multiset.mem_of_mem_filter hrow))
          fun hinner t row hrow c d i hc => hclass hinner t row hrow c d i (.inr hc)
    | full hfull =>
        exact delivered_full hlaws hL hR fun t row hrow =>
          full_values hlaws hrows horiented hleft hright hA hB hL hR hfull hO
            (Multiset.mem_of_mem_filter hrow)

end joined

/-! ### A plan on each task -/

/-- A plan can run. -/
lemma runs_nonempty [Fintype τ] [DecidableEq τ] {op : MemoOp F} (hop : Laid env op) :
    (Runs M env op).Nonempty := by
  induction hop with
  | leaf => exact exists_delivered _ _
  | unnest _ _ ih =>
      obtain ⟨R, hR⟩ := ih
      exact ⟨_, R, hR, rfl⟩
  | exchange _ _ _ _ ih =>
      obtain ⟨R, hR⟩ := ih
      obtain ⟨S, hS⟩ := exists_delivered (M := M) _ (gathered R)
      exact ⟨S, R, hR, hS⟩
  | @join c shape edge left right horiented _ _ _ ihl ihr =>
      obtain ⟨L, hL⟩ := ihl
      obtain ⟨R, hR⟩ := ihr
      choose O hO using fun t =>
        (shapeSpec env M shape edge left right).outcomes_nonempty (L t) (R t)
      exact ⟨_, edge, horiented.edge_eq, L, hL, R, hR, O, hO, rfl⟩

/-- **A plan that runs on many tasks computes rows that the plan may compute**, and they lie as its
partitioning says. -/
theorem runs_delivered [Fintype τ] [DecidableEq τ] (hlaws : Lawful env k M)
    (hrows : RowsLawful env k M) {op : MemoOp F} (hop : Laid env op) :
    ∀ S ∈ Runs M env op, ∃ W ∈ Yields M env op, Delivered M op.outputPartitioning W S := by
  induction hop with
  | leaf hp =>
      intro S hS
      exact ⟨_, rfl, hS⟩
  | unnest hinput hplain ih =>
      rename_i input i relation filterEdges
      rintro S ⟨R, hR, rfl⟩
      obtain ⟨W, hW, hdelivered⟩ := ih R hR
      refine ⟨_, ⟨W, hW, rfl⟩, hdelivered.bind hplain fun _ row made hmade => ?_⟩
      obtain ⟨new, -, rfl⟩ := Multiset.mem_map.mp (Multiset.mem_of_mem_filter hmade)
      refine congrArg (M.place _) (List.map_congr_left fun key hkey => M.value_congr fun c hc => ?_)
      exact if_pos (hinput.keysRead hlaws key hkey c hc)
  | exchange hinput hkind hplain hkeys ih =>
      rintro S ⟨R, hR, hS⟩
      obtain ⟨W, hW, hdelivered⟩ := ih R hR
      rw [hdelivered.gathered_eq hkind hplain] at hS
      exact ⟨W, hW, hS⟩
  | join horiented hleft hright hmeets ihl ihr =>
      rintro S ⟨edge, hedge, L, hL, R, hR, O, hO, rfl⟩
      obtain rfl := Option.some.inj (horiented.edge_eq.symm.trans hedge)
      obtain ⟨A, hA, hAL⟩ := ihl L hL
      obtain ⟨B, hB, hBR⟩ := ihr R hR
      exact joined_delivered hlaws hrows horiented hleft hright hA hB hAL hBR hmeets hO

end Verax.JoinOrder
