import Verax.LowerRepeat.Loop

/-!
# The result of the lowering

What `makeResult` builds on top of the walks: the ones with enough hops that arrive where they
should, shaped as the output.

* `target_spec`: the substitution reads each source from the walks' columns.
* `makeResult_eq`: the plan it builds.
* `rows_result`: its rows, one for each walk that arrives.
-/

namespace Verax.LowerRepeat.Lowering

open Verax.Lib Verax.Filters

variable {engine : Engine} {node : Repeat} {walk : Walk} {hops : HopColumns}
  {carried : List Column} {counts : Bool} {state : WalkState}

/-! ### Reading the sources from the state -/

/-- Lists with equal values at every point are related item by item. -/
lemma forall₂_of_map_eq {α β γ ι : Type} {f : ι → α → γ} {g : ι → β → γ} :
    ∀ {l : List α} {l' : List β}, l.length = l'.length → (∀ i, l.map (f i) = l'.map (g i)) →
      List.Forall₂ (fun a b => ∀ i, f i a = g i b) l l'
  | [], [], _, _ => .nil
  | _ :: _, _ :: _, hlength, h =>
      .cons (fun i => (List.cons.inj (h i)).1)
        (forall₂_of_map_eq (Nat.succ.inj hlength) fun i => (List.cons.inj (h i)).2)

/-- The substitution of the walks' columns for the sources. -/
def toState (carried : List Column) (hops : HopColumns) (state : WalkState) : PlanSubstitutions :=
  carried.zip state.carried ++ hops.values.zip state.hopValues ++ hops.collected.zip state.arrays

/-- The value of a source for a walk. -/
def stateValueOf (walk : Walk) (hops : HopColumns) (p : Row × List Row) (c : Column) : Value :=
  if c ∈ hops.values then valueOn p.2 c
  else if c ∈ hops.collected then collectedOn walk.fromEnd p.2 c
  else read p.1 c

/-- The sources the state holds are of the side the walk leaves from or of the hop, none twice. -/
structure Carries (node : Repeat) (walk : Walk) (carried : List Column) (hops : HopColumns) :
    Prop where
  nodup : carried.Nodup
  subset : carried ⊆ walk.source.outputColumns

section substitution

variable (hsees : walk.Sees node) (hreads : hops.Reads node)
  (hcarried : Carries node walk carried hops)
include hsees hreads hcarried

lemma carried_disjoint : carried.Disjoint (hops.values ++ hops.collected) :=
  fun _ hc hhop => hsees.source_hop (hcarried.subset hc) (hreads.mem_hop _ hhop)

omit hsees hreads hcarried in
lemma mem_of_mem_keys {sources replacements : List Column} {c : Column}
    (h : c ∈ (sources.zip replacements).map Prod.fst) : c ∈ sources := by
  obtain ⟨⟨c', d⟩, hmem, rfl⟩ := List.mem_map.mp h
  exact (List.of_mem_zip hmem).1

variable (state) in
/-- Adding the substitutions raises no conflict. -/
lemma addAll_toState :
    PlanSubstitutions.addAll [] carried state.carried = .ok (carried.zip state.carried) ∧
    PlanSubstitutions.addAll (carried.zip state.carried) hops.values state.hopValues =
      .ok (carried.zip state.carried ++ hops.values.zip state.hopValues) ∧
    PlanSubstitutions.addAll (carried.zip state.carried ++ hops.values.zip state.hopValues)
      hops.collected state.arrays = .ok (toState carried hops state) := by
  have hdisjoint := carried_disjoint hsees hreads hcarried
  obtain ⟨hvalues, hcollected, hboth⟩ := List.nodup_append.mp hreads.nodup
  refine ⟨?_, ?_, ?_⟩
  · exact PlanSubstitutions.addAll_eq _ hcarried.nodup (List.disjoint_nil_right _)
  · refine PlanSubstitutions.addAll_eq _ hvalues fun c hc hkey => ?_
    exact hdisjoint (mem_of_mem_keys hkey) (List.mem_append_left _ hc)
  · refine PlanSubstitutions.addAll_eq _ hcollected fun c hc hkey => ?_
    rw [List.map_append, List.mem_append] at hkey
    rcases hkey with hkey | hkey
    · exact hdisjoint (mem_of_mem_keys hkey) (List.mem_append_right _ hc)
    · exact hboth c (mem_of_mem_keys hkey) c hc rfl

omit hsees hreads hcarried in
/-- A part of the state gives each of its sources a column with its value for a walk. -/
lemma lookup_part {sources replacements : List Column} {t : Column → SqlType}
    {v : Row × List Row → Column → Value} (htypes : replacements.map Column.type = sources.map t)
    (hvalues : ∀ engine row p, state.Gives engine walk carried hops counts row p →
      readAll row replacements = sources.map (v p)) {c : Column} (hc : c ∈ sources) :
    ∃ d ∈ replacements, (sources.zip replacements).lookup c = some d ∧ d.type = t c ∧
      ∀ engine row p, state.Gives engine walk carried hops counts row p → read row d = v p c := by
  have hlength : sources.length = replacements.length := by
    simpa using congrArg List.length htypes.symm
  have htypes' : List.Forall₂ (fun c d => ∀ _ : Unit, t c = d.type) sources replacements :=
    forall₂_of_map_eq hlength fun _ => htypes.symm
  have hvalues' : List.Forall₂ (fun c d => ∀ i : {i : Engine × Row × (Row × List Row) //
      state.Gives i.1 walk carried hops counts i.2.1 i.2.2}, v i.1.2.2 c = read i.1.2.1 d)
      sources replacements :=
    forall₂_of_map_eq hlength fun i => (hvalues _ _ _ i.2).symm
  obtain ⟨d, hd, hlookup, htype⟩ := PlanSubstitutions.lookup_zip htypes' hc
  obtain ⟨d', -, hlookup', hvalue⟩ := PlanSubstitutions.lookup_zip hvalues' hc
  obtain rfl : d = d' := Option.some.inj (hlookup.symm.trans hlookup')
  exact ⟨d, hd, hlookup, (htype ()).symm,
    fun engine row p h => (hvalue ⟨(engine, row, p), h⟩).symm⟩

/-- The substitution gives each source a column of the state that has its value for a walk. -/
lemma lookup_toState (hlaid : state.Laid walk carried hops counts) {c : Column}
    (hc : c ∈ carried ++ (hops.values ++ hops.collected)) :
    ∃ d ∈ state.carried ++ state.hopValues ++ state.arrays,
      (toState carried hops state).lookup c = some d ∧
      d.type = (if c ∈ hops.collected then .array c.type else c.type) ∧
      ∀ engine row p, state.Gives engine walk carried hops counts row p →
        read row d = stateValueOf walk hops p c := by
  have hdisjoint := carried_disjoint hsees hreads hcarried
  have hboth := (List.nodup_append.mp hreads.nodup).2.2
  have hskip {sources replacements : List Column} {rest : PlanSubstitutions}
      (hnot : c ∉ sources) : ((sources.zip replacements) ++ rest).lookup c = rest.lookup c := by
    rw [List.lookup_append, PlanSubstitutions.lookup_eq_none fun h => hnot (mem_of_mem_keys h)]
    rfl
  rw [show toState carried hops state = carried.zip state.carried ++
    (hops.values.zip state.hopValues ++ hops.collected.zip state.arrays) from List.append_assoc ..]
  rcases List.mem_append.mp hc with hc | hc
  · -- a column of the side the walk leaves from
    obtain ⟨hvalues, hcollected⟩ := not_or.mp fun h => hdisjoint hc (List.mem_append.mpr h)
    obtain ⟨d, hd, hlookup, htype, hread⟩ :=
      lookup_part hlaid.carried_types (fun _ row p h => h.carried) hc
    refine ⟨d, by simp [hd], ?_, by rw [htype, if_neg hcollected], fun engine row p h => ?_⟩
    · rw [List.lookup_append, hlookup]
      rfl
    · rw [hread engine row p h, stateValueOf, if_neg hvalues, if_neg hcollected]
  have hnot : c ∉ carried := fun h => hdisjoint h hc
  rw [hskip hnot]
  rcases List.mem_append.mp hc with hc | hc
  · -- a value of the hop
    have hcollected : c ∉ hops.collected := fun h => hboth c hc c h rfl
    obtain ⟨d, hd, hlookup, htype, hread⟩ :=
      lookup_part hlaid.hopValues_types (fun _ row p h => h.hopValues) hc
    refine ⟨d, by simp [hd], ?_, by rw [htype, if_neg hcollected], fun engine row p h => ?_⟩
    · rw [List.lookup_append, hlookup]
      rfl
    · rw [hread engine row p h, stateValueOf, if_pos hc]
  · -- a collected column
    have hvalues : c ∉ hops.values := fun h => hboth c h c hc rfl
    obtain ⟨d, hd, hlookup, htype, hread⟩ :=
      lookup_part (hlaid.arrays_types.trans hreads.arrayTypes) (fun _ row p h => h.arrays) hc
    refine ⟨d, by simp [hd], ?_, by rw [htype, if_pos hc], fun engine row p h => ?_⟩
    · rw [hskip hvalues, hlookup]
    · rw [hread engine row p h, stateValueOf, if_neg hvalues, if_pos hc]

end substitution

/-! ### The plan -/

/-- The hop count of the walks. -/
def countExpr (state : WalkState) : Expr := (state.hops.map .column).getD (makeNull .bigint)

/-- The conditions on the walks: enough hops, and back at their start if they end there. -/
def resultPredicates (node : Repeat) (walk : Walk) (state : WalkState) (carried : List Column)
    (hops : HopColumns) : List Expr :=
  (if node.minHops > 0 then [makeGreaterThanOrEqual (countExpr state) (bigintLiteral node.minHops)]
    else []) ++
  if walk.target = none then
    List.zipWith (fun vertex key => makeEq (.column vertex) key) state.vertex
      (walk.toKeys.map (replaceColumns (toState carried hops state).target))
  else []

/-- The walks that meet the conditions. -/
def filteredNode (node : Repeat) (walk : Walk) (walks : Node) (state : WalkState)
    (carried : List Column) (hops : HopColumns) : Node :=
  if resultPredicates node walk state carried hops = [] then walks
  else .filter walks (resultPredicates node walk state carried hops)

/-- The columns of the walks joined with the side they lead to. -/
def resultColumns (node : Repeat) (state : WalkState) (target : Node) : List Column :=
  state.carried ++ state.hopValues ++ state.arrays ++
    (if node.hopCount.isSome then state.hops.toList else []) ++
    target.outputsAmong node.effectiveSourceColumns

/-- The walks that arrive. -/
def arrivedNode (node : Repeat) (walk : Walk) (walks : Node) (state : WalkState)
    (carried : List Column) (hops : HopColumns) : Node :=
  match walk.target with
  | none => filteredNode node walk walks state carried hops
  | some target => .join (filteredNode node walk walks state carried hops) target
      (toExprs state.vertex) walk.toKeys (resultColumns node state target)

/-- The expression for a source. -/
def outputExpr (node : Repeat) (state : WalkState) (carried : List Column) (hops : HopColumns)
    (source : Column) : Expr :=
  if node.hopCount = some source then countExpr state
  else .column ((toState carried hops state).target source)

/-- The lowered Repeat on top of its walks. -/
def resultNode (node : Repeat) (walk : Walk) (walks : Node) (state : WalkState)
    (carried : List Column) (hops : HopColumns) : Node :=
  .project (arrivedNode node walk walks state carried hops)
    (node.effectiveSourceColumns.map (outputExpr node state carried hops)) node.outputColumns

lemma outputColumns_filteredNode {walks : Node} :
    (filteredNode node walk walks state carried hops).outputColumns = walks.outputColumns := by
  rw [filteredNode]
  split <;> rfl

/-- A loop whose rounds all succeed returns their results. -/
lemma mapM_ok {α β : Type} {f : α → Except String β} {g : α → β} :
    ∀ {l : List α}, (∀ a ∈ l, f a = .ok (g a)) → l.mapM f = .ok (l.map g)
  | [], _ => rfl
  | a :: l, h => by
      rw [List.mapM_cons, h a List.mem_cons_self,
        mapM_ok fun b hb => h b (List.mem_cons_of_mem _ hb)]
      rfl

/-- What the result needs of the walks: their columns are the state's, counted when they have to be,
the substitution replaces no column it replaced others by, and no column is one of the side they
lead to. -/
structure Walked (node : Repeat) (walk : Walk) (walks : Node) (state : WalkState)
    (carried : List Column) (hops : HopColumns) (counts : Bool) : Prop where
  laid : state.Laid walk carried hops counts
  output : walks.outputColumns = state.columns
  counts_min : 0 < node.minHops → counts = true
  counts_hopCount : node.hopCount.isSome → counts = true
  stable : ∀ d ∈ state.carried ++ state.hopValues ++ state.arrays,
    (toState carried hops state).target d = d
  keys_carried : walk.target = none → ∀ e ∈ walk.toKeys, e.columns ⊆ carried
  target_new : ∀ t, walk.target = some t → state.columns.Disjoint t.outputColumns
  sources_carried : ∀ c ∈ node.effectiveSourceColumns, c ∈ walk.source.outputColumns → c ∈ carried
  sources_hop : ∀ c ∈ node.effectiveSourceColumns, c ∈ node.hop.outputColumns →
    c ∈ hops.values ++ hops.collected

section result

variable {walks : Node} (hwalked : Walked node walk walks state carried hops counts)
include hwalked

/-- A walk that has to be counted is. -/
lemma hopCountOf_eq (hcounts : counts = true) :
    ∃ count ∈ state.columns, state.hops = some count ∧ count.type = .bigint ∧
      hopCountOf state = .ok count ∧ countExpr state = .column count := by
  obtain ⟨count, hmem, hcount, htype⟩ := (hcounts ▸ hwalked.laid).hops_eq
  exact ⟨count, hmem, hcount, htype, by rw [hopCountOf, hcount],
    by rw [countExpr, hcount, Option.map_some, Option.getD_some]⟩

variable (hsees : walk.Sees node) (hreads : hops.Reads node)
  (hcarried : Carries node walk carried hops)
include hsees hreads hcarried

omit hwalked hsees hreads hcarried in
variable (state) in
/-- The substitution keeps the columns it is not made for. -/
lemma target_of_not_mem {c : Column} (hc : c ∉ carried ++ (hops.values ++ hops.collected)) :
    (toState carried hops state).target c = c := by
  rw [PlanSubstitutions.target, PlanSubstitutions.lookup_eq_none, Option.getD_none]
  intro h
  rw [toState, List.map_append, List.map_append] at h
  rcases List.mem_append.mp h with h | h
  · rcases List.mem_append.mp h with h | h
    · exact hc (List.mem_append_left _ (mem_of_mem_keys h))
    · exact hc (by simp [mem_of_mem_keys h])
  · exact hc (by simp [mem_of_mem_keys h])

/-- The substitution replaces a column once. -/
lemma target_target (c : Column) :
    (toState carried hops state).target ((toState carried hops state).target c) =
      (toState carried hops state).target c := by
  by_cases hc : c ∈ carried ++ (hops.values ++ hops.collected)
  · obtain ⟨d, hd, hlookup, -⟩ := lookup_toState hsees hreads hcarried hwalked.laid hc
    have htarget : (toState carried hops state).target c = d := by
      rw [PlanSubstitutions.target, hlookup, Option.getD_some]
    rw [htarget, hwalked.stable d hd]
  · have hsame := target_of_not_mem state hc
    rw [hsame, hsame]

omit hsees hreads hcarried in
/-- The columns of the walks joined with the side they lead to come from either. -/
lemma mem_resultColumns {target : Node} {c : Column} (hc : c ∈ resultColumns node state target) :
    c ∈ state.columns ∨ c ∈ target.outputColumns := by
  have hstate := hwalked.laid.mem_columns (c := c)
  rw [resultColumns] at hc
  rcases List.mem_append.mp hc with hc | hc
  · refine .inl (hstate.mpr ?_)
    rcases List.mem_append.mp hc with hc | hc
    · simp only [List.mem_append] at hc
      tauto
    · split at hc
      · rw [Option.mem_toList] at hc
        simp [Option.mem_def.mp hc]
      · cases hc
  · exact .inr (of_decide_eq_true (List.mem_filter.mp hc).2)

omit hreads hcarried in
lemma joinTarget_eq :
    joinTarget node walk (filteredNode node walk walks state carried hops) state =
      .ok (arrivedNode node walk walks state carried hops) := by
  rw [joinTarget, arrivedNode]
  cases walk.target with
  | none => rfl
  | some target =>
    have hcount : joinedCount node state =
        .ok (if node.hopCount.isSome then state.hops.toList else []) := by
      rw [joinedCount]
      split
      · rename_i hsome
        obtain ⟨count, -, hhops, -, hcount, -⟩ :=
          hopCountOf_eq hwalked (hwalked.counts_hopCount hsome)
        rw [hcount, hhops]
        rfl
      · rfl
    have hkeys : (toExprs state.vertex).length = walk.toKeys.length := by
      have hvertex := congrArg List.length hwalked.laid.vertex_types
      have hto := congrArg List.length (hsees.to_types.trans hsees.from_types.symm)
      simp only [List.length_map] at hvertex hto
      rw [toExprs, List.length_map, hvertex, hto]
    have hcolumns : ∀ c ∈ resultColumns node state target,
        c ∈ (filteredNode node walk walks state carried hops).outputColumns ∨
          c ∈ target.outputColumns := by
      intro c hc
      rw [outputColumns_filteredNode, hwalked.output]
      exact mem_resultColumns hwalked hc
    change (joinedCount node state >>= _) = _
    rw [hcount]
    change Builder.join _ _ _ _ (resultColumns node state target) = _
    rw [Builder.join, if_neg (not_not.mpr hkeys), if_pos hcolumns]

/-- Building the result passes all its checks. -/
lemma makeResult_eq :
    makeResult node walk walks state carried hops =
      .ok (resultNode node walk walks state carried hops) := by
  obtain ⟨hadd₁, hadd₂, hadd₃⟩ := addAll_toState state hsees hreads hcarried
  have happly (e : Expr) : (toState carried hops state).apply e =
      .ok (replaceColumns (toState carried hops state).target e) :=
    PlanSubstitutions.apply_eq fun c _ => target_target hwalked hsees hreads hcarried c
  have henough : enoughHops node state = .ok (if node.minHops > 0 then
      [makeGreaterThanOrEqual (countExpr state) (bigintLiteral node.minHops)] else []) := by
    rw [enoughHops]
    split
    · rename_i hmin
      obtain ⟨count, -, -, -, hcount, hexpr⟩ := hopCountOf_eq hwalked (hwalked.counts_min hmin)
      rw [hcount, hexpr]
      rfl
    · rfl
  have hback : backAtSource walk state (toState carried hops state) =
      .ok (if walk.target = none then
        List.zipWith (fun vertex key => makeEq (.column vertex) key) state.vertex
          (walk.toKeys.map (replaceColumns (toState carried hops state).target)) else []) := by
    rw [backAtSource, mapM_ok fun e _ => happly e]
    split <;> rfl
  have hfilter : filterWalks walks (resultPredicates node walk state carried hops) =
      .ok (filteredNode node walk walks state carried hops) := by
    rw [filterWalks, filteredNode]
    split
    · rfl
    · rename_i hne
      exact if_neg hne
  have hjoin : joinTarget node walk (filteredNode node walk walks state carried hops) state =
      .ok (arrivedNode node walk walks state carried hops) :=
    joinTarget_eq hwalked hsees
  have houtput : (node.effectiveSourceColumns.mapM fun source =>
      if node.hopCount = some source then (hopCountOf state).map Expr.column
      else (toState carried hops state).apply (.column source)) =
      .ok (node.effectiveSourceColumns.map (outputExpr node state carried hops)) := by
    refine mapM_ok fun source _ => ?_
    rw [outputExpr]
    split
    · rename_i hsource
      obtain ⟨count, -, -, -, hcount, hexpr⟩ :=
        hopCountOf_eq hwalked (hwalked.counts_hopCount (by simp [hsource]))
      rw [hcount, hexpr]
      rfl
    · rw [happly, replaceColumns]
  have hproject : Builder.project (arrivedNode node walk walks state carried hops)
      (node.effectiveSourceColumns.map (outputExpr node state carried hops)) node.outputColumns =
      .ok (resultNode node walk walks state carried hops) :=
    if_pos (by rw [List.length_map, node.sources_length])
  rw [makeResult, henough, hadd₁]
  change (PlanSubstitutions.addAll _ _ _ >>= _) = _
  rw [hadd₂]
  change (PlanSubstitutions.addAll _ _ _ >>= _) = _
  rw [hadd₃]
  change (backAtSource _ _ _ >>= _) = _
  rw [hback]
  change (filterWalks walks (resultPredicates node walk state carried hops) >>= _) = _
  rw [hfilter]
  change (joinTarget _ _ _ _ >>= _) = _
  rw [hjoin]
  change (List.mapM (m := Except String) _ _ >>= _) = _
  rw [houtput]
  exact hproject

/-! ### Its rows -/

omit hwalked hsees hreads hcarried in
/-- The comparisons of two lists of keys are those of the keys. -/
lemma eval_makeEqs (engine : Engine) (row : Row) :
    ∀ {vertex : List Column} {keys : List Expr}, vertex.length = keys.length →
      ((∀ e ∈ List.zipWith (fun vertex key => makeEq (.column vertex) key) vertex keys,
          (engine.eval row e).truth = some true) ↔
        keysMatch engine (vertex.map Column.type) (readAll row vertex)
          (keys.map (engine.eval row)) = true)
  | [], [], _ => by simp [keysMatch]
  | c :: vertex, key :: keys, hlength => by
      have hrest := eval_makeEqs engine row (Nat.succ.inj hlength)
      have hfirst : (engine.eval row (makeEq (.column c) key)).truth =
          engine.compareValues .equality c.type (read row c) (engine.eval row key) := by
        rw [makeEq, Engine.eval_apply, Value.truth_conform]
        have hvalues : [Expr.column c, key].map (engine.eval row) =
            [read row c, engine.eval row key] := by
          rw [List.map_cons, List.map_cons, List.map_nil, eval_column]
        rw [hvalues]
        exact Value.truth_ofTruth _
      have hread : readAll row (c :: vertex) = read row c :: readAll row vertex := rfl
      rw [List.zipWith_cons_cons, List.forall_mem_cons, hrest, hfirst, List.map_cons,
        List.map_cons, hread, keysMatch, Bool.and_eq_true, decide_eq_true_iff]

/-- Keys of the side the walk leaves from, read from the state. -/
lemma eval_replaced_keys {row : Row} {p : Row × List Row}
    (hgives : state.Gives engine walk carried hops counts row p) {e : Expr}
    (he : e.columns ⊆ carried) :
    engine.eval row (replaceColumns (toState carried hops state).target e) =
      engine.eval p.1 e := by
  refine (eval_replaceColumns engine e fun c hc => ?_).2
  have hnot := carried_disjoint hsees hreads hcarried (he hc)
  obtain ⟨hvalues, hcollected⟩ := not_or.mp fun h => hnot (List.mem_append.mpr h)
  obtain ⟨d, -, hlookup, htype, hread⟩ :=
    lookup_toState hsees hreads hcarried hwalked.laid (List.mem_append_left _ (he hc))
  rw [PlanSubstitutions.target, hlookup, Option.getD_some, hread engine row p hgives, htype,
    if_neg hcollected, stateValueOf, if_neg hvalues, if_neg hcollected]
  exact ⟨rfl, rfl⟩

/-- The walk has enough hops and, if it is to end where it left from, has come back. -/
def Returns (engine : Engine) (node : Repeat) (walk : Walk) (p : Row × List Row) : Prop :=
  node.minHops ≤ p.2.length ∧ (walk.target = none →
    node.sameVertex engine (reachedVertex engine walk p) (vertexOf engine walk.toKeys p.1) = true)

instance (engine : Engine) (node : Repeat) (walk : Walk) : DecidablePred (Returns engine node walk) :=
  fun _ => inferInstanceAs (Decidable (_ ∧ _))

/-- The conditions on a walk's row are those on the walk. -/
lemma eval_resultPredicates {row : Row} {p : Row × List Row}
    (hgives : state.Gives engine walk carried hops counts row p) (hshort : p.2.length < 2 ^ 62) :
    (∀ e ∈ resultPredicates node walk state carried hops,
      (engine.eval row e).truth = some true) ↔ Returns engine node walk p := by
  have hmax := node.maxHops_lt
  have hle := node.minHops_le
  rw [resultPredicates, List.forall_mem_append]
  refine and_congr ?_ ?_
  · split
    · rename_i hmin
      obtain ⟨count, -, hhops, htype, -, hexpr⟩ :=
        hopCountOf_eq hwalked (hwalked.counts_min hmin)
      have hcount := hgives.hops
      rw [hhops, hwalked.counts_min hmin] at hcount
      rw [List.forall_mem_singleton, hexpr, makeGreaterThanOrEqual, eval_compareHops engine
        (.inr rfl) (List.cons.inj hcount).1 htype hshort (by omega)]
      simp [relation]
    · rename_i hmin
      simp only [List.not_mem_nil, false_implies, implies_true, true_iff]
      omega
  · split
    · rename_i htarget
      have hlength : state.vertex.length =
          (walk.toKeys.map (replaceColumns (toState carried hops state).target)).length := by
        have hvertex := congrArg List.length hwalked.laid.vertex_types
        have hto := congrArg List.length (hsees.to_types.trans hsees.from_types.symm)
        simp only [List.length_map] at hvertex hto ⊢
        rw [hvertex, hto]
      have hkeys : (walk.toKeys.map (replaceColumns (toState carried hops state).target)).map
          (engine.eval row) = vertexOf engine walk.toKeys p.1 := by
        rw [List.map_map]
        exact List.map_congr_left fun e he => eval_replaced_keys hwalked hsees hreads hcarried hgives
          (hwalked.keys_carried htarget e he)
      rw [eval_makeEqs engine row hlength, hkeys, hgives.vertex, hwalked.laid.vertex_types,
        hsees.from_types]
      exact ⟨fun h _ => h, fun h => h htarget⟩
    · rename_i htarget
      simp [htarget]

/-- The rows of the walks that meet the conditions. -/
lemma rows_filteredNode {tables : ℕ → Multiset Row} {states : States}
    {shown : Multiset (Row × List Row)}
    (hrows : walks.rows engine tables states =
      .ok (stateRows engine walk carried hops counts state.columns shown))
    (hshort : ∀ p ∈ shown, p.2.length < 2 ^ 62) :
    (filteredNode node walk walks state carried hops).rows engine tables states =
      .ok (stateRows engine walk carried hops counts state.columns
        (shown.filter (Returns engine node walk))) := by
  have hfiltered : (filteredNode node walk walks state carried hops).rows engine tables states =
      .ok ((stateRows engine walk carried hops counts state.columns shown).filter fun row =>
        ∀ e ∈ resultPredicates node walk state carried hops,
          (engine.eval row e).truth = some true) := by
    rw [filteredNode]
    split
    · rename_i hnone
      rw [hrows, hnone]
      simp
    · rw [Node.rows, hrows]
      rfl
  rw [hfiltered, stateRows, Multiset.filter_map]
  refine congrArg (fun rows => Except.ok (Multiset.map _ rows)) ?_
  refine Multiset.filter_congr fun p hp => ?_
  exact eval_resultPredicates hwalked hsees hreads hcarried
    (hwalked.laid.reads engine hsees hreads p) (hshort p hp)

/-- The value the plan gives an output for a walk that arrives at a row. -/
def loweredValue (node : Repeat) (walk : Walk) (hops : HopColumns) (p : Row × List Row)
    (arrival : Row) (source : Column) : Value :=
  if node.hopCount = some source then bigint p.2.length
  else if source ∈ (walk.target.map Node.outputColumns).getD [] then read arrival source
  else stateValueOf walk hops p source

/-- The row the plan gives for a walk that arrives at a row. -/
def loweredRow (node : Repeat) (walk : Walk) (hops : HopColumns) (p : Row × List Row)
    (arrival : Row) : Row :=
  rowOf node.outputColumns (node.effectiveSourceColumns.map (loweredValue node walk hops p arrival))

omit hsees hreads hcarried in
/-- A source is the hop count, held by the walks, or of the side they lead to. -/
lemma source_cases (hsees : walk.Sees node) {source : Column}
    (hsource : source ∈ node.effectiveSourceColumns) :
    node.hopCount = some source ∨ source ∈ carried ++ (hops.values ++ hops.collected) ∨
      source ∈ (walk.target.map Node.outputColumns).getD [] := by
  obtain ⟨output, -, hpair⟩ := exists_mem_zip node.sources_length hsource
  have hcarries : node.Carries _ _ := node.carries _ hpair
  rw [Repeat.Key.Carries] at hcarries
  split_ifs at hcarries with hcount hside
  · exact .inl (hcount.trans (congrArg some hcarries.1.symm))
  · rcases (hsees.mem_sides _).mp hside with hside | ⟨t, ht, hside⟩
    · exact .inr (.inl (List.mem_append_left _ (hwalked.sources_carried _ hsource hside)))
    · exact .inr (.inr (by simpa [ht] using hside))
  · exact .inr (.inl (List.mem_append_right _ (hwalked.sources_hop _ hsource hcarries.1)))

/-- What the output expressions evaluate to where the state's columns and those of the side the
walks lead to can be read. -/
lemma eval_outputExpr {row arrived arrival : Row} {p : Row × List Row}
    (hgives : state.Gives engine walk carried hops counts row p)
    (hstate : ∀ c ∈ state.carried ++ state.hopValues ++ state.arrays, read arrived c = read row c)
    (hcount : ∀ c, node.hopCount.isSome → state.hops = some c → read arrived c = read row c)
    (htarget : ∀ c ∈ node.effectiveSourceColumns,
      c ∈ (walk.target.map Node.outputColumns).getD [] → read arrived c = read arrival c)
    {source : Column} (hsource : source ∈ node.effectiveSourceColumns) :
    engine.eval arrived (outputExpr node state carried hops source) =
      loweredValue node walk hops p arrival source := by
  rw [outputExpr, loweredValue]
  split
  · rename_i hhops
    have hsome : node.hopCount.isSome := by simp [hhops]
    obtain ⟨count, -, hcounted, -, -, hexpr⟩ :=
      hopCountOf_eq hwalked (hwalked.counts_hopCount hsome)
    have hvalue := hgives.hops
    rw [hcounted, hwalked.counts_hopCount hsome] at hvalue
    rw [hexpr, eval_column, hcount count hsome hcounted]
    exact (List.cons.inj hvalue).1
  · rename_i hhops
    rw [eval_column]
    split
    · rename_i hside
      obtain ⟨t, ht, hmem⟩ : ∃ t, walk.target = some t ∧ source ∈ t.outputColumns := by
        cases ht : walk.target with
        | none => simp [ht] at hside
        | some t => exact ⟨t, rfl, by simpa [ht] using hside⟩
      have hnot : source ∉ carried ++ (hops.values ++ hops.collected) := by
        intro h
        rcases List.mem_append.mp h with h | h
        · exact hsees.source_target t ht (hcarried.subset h) hmem
        · exact hsees.target_hop t ht hmem (hreads.mem_hop _ h)
      rw [target_of_not_mem state hnot, htarget source hsource hside]
    · rename_i hside
      have hheld := ((source_cases hwalked hsees hsource).resolve_left hhops).resolve_right hside
      obtain ⟨d, hd, hlookup, -, hread⟩ :=
        lookup_toState hsees hreads hcarried hwalked.laid hheld
      rw [PlanSubstitutions.target, hlookup, Option.getD_some, hstate d hd,
        hread engine row p hgives]

/-- The rows of the result, where walks end at the row they left from. -/
theorem rows_resultNode_none (htarget : walk.target = none) {tables : ℕ → Multiset Row}
    {states : States} {shown : Multiset (Row × List Row)}
    (hrows : walks.rows engine tables states =
      .ok (stateRows engine walk carried hops counts state.columns shown))
    (hshort : ∀ p ∈ shown, p.2.length < 2 ^ 62) :
    (resultNode node walk walks state carried hops).rows engine tables states =
      .ok ((shown.filter (Returns engine node walk)).map
        fun p => loweredRow node walk hops p p.1) := by
  have harrived : arrivedNode node walk walks state carried hops =
      filteredNode node walk walks state carried hops := by
    rw [arrivedNode, htarget]
  rw [resultNode, Node.rows, harrived,
    rows_filteredNode hwalked hsees hreads hcarried hrows hshort]
  change Except.ok _ = Except.ok _
  rw [stateRows, Multiset.map_map]
  refine congrArg Except.ok (Multiset.map_congr rfl fun p _ => ?_)
  rw [Function.comp_apply, loweredRow, List.map_map]
  refine congrArg _ (List.map_congr_left fun source hsource => ?_)
  refine eval_outputExpr hwalked hsees hreads hcarried (hwalked.laid.reads engine hsees hreads p)
    (fun _ _ => rfl) (fun _ _ _ => rfl) (fun c _ hc => ?_) hsource
  rw [htarget] at hc
  cases hc

/-- The rows of the result, where walks lead to another side. -/
theorem rows_resultNode_some {target : Node} (htarget : walk.target = some target)
    {tables : ℕ → Multiset Row} {states : States} {shown : Multiset (Row × List Row)}
    (hrows : walks.rows engine tables states =
      .ok (stateRows engine walk carried hops counts state.columns shown))
    (hshort : ∀ p ∈ shown, p.2.length < 2 ^ 62) {targetRows : Multiset Row}
    (htargetRows : target.rows engine tables states = .ok targetRows) :
    (resultNode node walk walks state carried hops).rows engine tables states =
      .ok ((shown.filter (Returns engine node walk)).bind fun p =>
        (targetRows.filter fun row => node.sameVertex engine (reachedVertex engine walk p)
          (vertexOf engine walk.toKeys row)).map fun row => loweredRow node walk hops p row) := by
  have harrived : arrivedNode node walk walks state carried hops =
      .join (filteredNode node walk walks state carried hops) target (toExprs state.vertex)
        walk.toKeys (resultColumns node state target) := by
    rw [arrivedNode, htarget]
  have hleft : (filteredNode node walk walks state carried hops).outputColumns = state.columns :=
    outputColumns_filteredNode.trans hwalked.output
  rw [resultNode, Node.rows, harrived, Node.rows,
    rows_filteredNode hwalked hsees hreads hcarried hrows hshort, htargetRows]
  change Except.ok _ = Except.ok _
  rw [BagJoin.inner, stateRows, Multiset.bind_map, Multiset.map_bind, Multiset.map_bind, hleft]
  refine congrArg Except.ok (Multiset.bind_congr fun p _ => ?_)
  have hgives := hwalked.laid.reads engine hsees hreads p
  have hmatch (row : Row) : keysMatch engine ((toExprs state.vertex).map Expr.type)
      ((toExprs state.vertex).map (engine.eval
        (rowOf state.columns (stateValues engine walk carried hops counts p))))
      (walk.toKeys.map (engine.eval row)) =
      node.sameVertex engine (reachedVertex engine walk p) (vertexOf engine walk.toKeys row) := by
    rw [map_type_toExprs, map_eval_toExprs, hgives.vertex, hwalked.laid.vertex_types,
      hsees.from_types]
    rfl
  simp only [hmatch, Multiset.map_map]
  refine Multiset.map_congr rfl fun row _ => ?_
  rw [Function.comp_apply, loweredRow, List.map_map]
  refine congrArg _ (List.map_congr_left fun source hsource => ?_)
  have hstate {c : Column} (hc : c ∈ resultColumns node state target) (hmem : c ∈ state.columns) :
      read (joinedRow state.columns (resultColumns node state target)
        (rowOf state.columns (stateValues engine walk carried hops counts p)) row) c =
      read (rowOf state.columns (stateValues engine walk carried hops counts p)) c := by
    rw [read, joinedRow, if_pos hc, if_pos hmem, read]
  refine eval_outputExpr hwalked hsees hreads hcarried hgives (fun c hc => ?_) (fun c hsome hc => ?_)
    (fun c hc hmem => ?_) hsource
  · refine hstate (List.mem_append_left _ (List.mem_append_left _ hc))
      (hwalked.laid.mem_columns.mpr ?_)
    simp only [List.mem_append] at hc
    tauto
  · refine hstate ?_ (hwalked.laid.mem_columns.mpr (by simp [hc]))
    rw [resultColumns, if_pos hsome, hc]
    simp
  · have hmem : c ∈ target.outputColumns := by simpa [htarget] using hmem
    have hnot : c ∉ state.columns := fun h => hwalked.target_new target htarget h hmem
    have hread : c ∈ resultColumns node state target := by
      rw [resultColumns]
      simp [Node.outputsAmong, hc, hmem]
    simp only [Function.comp_apply, read, joinedRow, if_pos hread, if_neg hnot]

end result

end Verax.LowerRepeat.Lowering
