import Verax.LowerRepeat.Result

/-!
# A lowered Repeat returns its walks

* `lower_fails`: the loop cannot be built when its bound does not fit, or an input of it reads a
  recursive state.
* `lower_rows`: otherwise the plan has one row for each walk of between `minHops` and `maxHops` hops
  that arrives, seen from the side the walks leave from.
* `ReturnsWalks`, `returnsWalks_iff`: the plan returns the Repeat's rows exactly if, in addition, no
  column of the hop is output both as a value and as an array, or there is no walk.
-/

namespace Verax.LowerRepeat.Lowering

open Verax.Lib Verax.Filters

variable {engine : Engine} {node : Repeat} {walk : Walk}

/-! ### What the walks carry -/

/-- The columns of the side the walk leaves from that the walks carry. -/
def carriedOf (node : Repeat) (walk : Walk) : List Column :=
  if walk.target = none then
    appendColumnsRead walk.toKeys (walk.source.outputsAmong node.effectiveSourceColumns)
  else walk.source.outputsAmong node.effectiveSourceColumns

/-- The walks count their hops. -/
def countsOf (node : Repeat) : Bool := decide (node.maxHops > 1 ∨ node.hopCount.isSome)

/-- Sources that keep their identity are not repeated, as the outputs are not. -/
lemma nodup_filter_sources {side : List Column} :
    ∀ {sources outputs : List Column}, sources.length = outputs.length →
      (∀ p ∈ sources.zip outputs, p.1 ∈ side → p.2 = p.1) → outputs.Nodup →
        (sources.filter (· ∈ side)).Nodup
  | [], _, _, _, _ => .nil
  | source :: sources, output :: outputs, hlength, hkeep, hnodup => by
      obtain ⟨hnew, hnodup⟩ := List.nodup_cons.mp hnodup
      rw [List.zip_cons_cons, List.forall_mem_cons] at hkeep
      have hrest := nodup_filter_sources (Nat.succ.inj hlength) hkeep.2 hnodup
      rw [List.filter_cons]
      split
      · rename_i hside
        have hsame : output = source := hkeep.1 (of_decide_eq_true hside)
        refine List.nodup_cons.mpr ⟨fun hmem => hnew ?_, hrest⟩
        obtain ⟨output', houtput', hpair⟩ :=
          exists_mem_zip (Nat.succ.inj hlength) (List.mem_filter.mp hmem).1
        have hkept : output' = source := hkeep.2 _ hpair (of_decide_eq_true hside)
        rw [hsame]
        exact hkept ▸ houtput'
      · exact hrest

/-- A source of a side is output under its own identity. -/
lemma carries_side (hsees : walk.Sees node) {p : Column × Column}
    (hmem : p ∈ node.effectiveSourceColumns.zip node.outputColumns)
    (hside : p.1 ∈ walk.source.outputColumns ∨
      ∃ t, walk.target = some t ∧ p.1 ∈ t.outputColumns) :
    p.2 = p.1 ∧ node.hopCount ≠ some p.2 := by
  have hsides := (hsees.mem_sides p.1).mpr hside
  have hcarries : node.Carries p.1 p.2 := node.carries p hmem
  rw [Repeat.Key.Carries] at hcarries
  split_ifs at hcarries with hcount
  · have hfresh := node.hopCount_fresh _ hcount
    rw [← hcarries.1] at hfresh
    simp only [List.mem_append] at hfresh hsides
    tauto
  · exact ⟨hcarries, hcount⟩

lemma carriedOf_carries (hsees : walk.Sees node) :
    Carries node walk (carriedOf node walk) (HopColumns.of node) := by
  have hnodup : (walk.source.outputsAmong node.effectiveSourceColumns).Nodup :=
    nodup_filter_sources node.sources_length
      (fun p hp hside => (carries_side hsees hp (.inl hside)).1) node.outputs_nodup
  have hsubset : walk.source.outputsAmong node.effectiveSourceColumns ⊆ walk.source.outputColumns :=
    fun c hc => of_decide_eq_true (List.mem_filter.mp hc).2
  rw [carriedOf]
  split
  · rename_i htarget
    refine ⟨nodup_appendColumnsRead hnodup, fun c hc => ?_⟩
    rcases mem_appendColumnsRead.mp hc with hc | ⟨e, he, hc⟩
    · exact hsubset hc
    · have hread := hsees.toKeys_read e he hc
      rwa [htarget] at hread
  · exact ⟨hnodup, hsubset⟩

/-- The columns of the inputs were made before. -/
structure MadeBefore (node : Repeat) (n : ℕ) : Prop where
  start : Below n node.start.outputColumns
  hop : Below n node.hop.outputColumns
  endNode : Below n node.endColumns

lemma MadeBefore.below_side {n : ℕ} (hmade : MadeBefore node n) (hsees : walk.Sees node)
    {c : Column} (hside : c ∈ walk.source.outputColumns ∨
      ∃ t, walk.target = some t ∧ c ∈ t.outputColumns) : c.id < n := by
  rcases List.mem_append.mp ((hsees.mem_sides c).mpr hside) with h | h
  · exact hmade.start c h
  · exact hmade.endNode c h

lemma MadeBefore.below_sources {n : ℕ} (hmade : MadeBefore node n) (hsees : walk.Sees node) :
    Below n (carriedOf node walk ++
      ((HopColumns.of node).values ++ (HopColumns.of node).collected)) := by
  intro c hc
  rcases List.mem_append.mp hc with hc | hc
  · exact hmade.below_side hsees (.inl ((carriedOf_carries hsees).subset hc))
  · exact hmade.hop c ((HopColumns.of_reads node).mem_hop c hc)

/-- What the result needs of the walks, given how their columns are laid out. -/
lemma walked_of {walks : Node} {state : WalkState}
    (hlaid : state.Laid walk (carriedOf node walk) (HopColumns.of node) (countsOf node))
    (houtput : walks.outputColumns = state.columns)
    (hstable : ∀ d ∈ state.carried ++ state.hopValues ++ state.arrays,
      (toState (carriedOf node walk) (HopColumns.of node) state).target d = d)
    (hnew : ∀ t, walk.target = some t → state.columns.Disjoint t.outputColumns) :
    Walked node walk walks state (carriedOf node walk) (HopColumns.of node) (countsOf node) where
  laid := hlaid
  output := houtput
  counts_min hmin := by
    have hle := node.minHops_le
    have hone := node.not_oneHop
    exact decide_eq_true (.inl (by omega))
  counts_hopCount hsome := decide_eq_true (.inr hsome)
  stable := hstable
  keys_carried htarget e he c hc := by
    rw [carriedOf, if_pos htarget, mem_appendColumnsRead]
    exact .inr ⟨e, he, hc⟩
  target_new := hnew
  sources_carried c hc hside := by
    have hmem : c ∈ walk.source.outputsAmong node.effectiveSourceColumns :=
      List.mem_filter.mpr ⟨hc, decide_eq_true hside⟩
    rw [carriedOf]
    split
    · exact mem_appendColumnsRead.mpr (.inl hmem)
    · exact hmem
  sources_hop c hc hhop := by
    obtain ⟨output, -, hpair⟩ := exists_mem_zip node.sources_length hc
    exact HopColumns.mem_collect hpair hhop (List.not_mem_nil)

/-- New columns meet the result's needs. -/
lemma walked_of_fresh (hsees : walk.Sees node) {n : ℕ} (hmade : MadeBefore node n) {walks : Node}
    {state : WalkState}
    (hlaid : state.Laid walk (carriedOf node walk) (HopColumns.of node) (countsOf node))
    (houtput : walks.outputColumns = state.columns) (hfresh : ∀ c ∈ state.columns, n ≤ c.id) :
    Walked node walk walks state (carriedOf node walk) (HopColumns.of node) (countsOf node) := by
  refine walked_of hlaid houtput (fun d hd => target_of_not_mem state fun h => ?_)
    fun t ht c hc hmem => ?_
  · have hold := hmade.below_sources hsees d h
    have hnew := hfresh d (hlaid.mem_columns.mpr (by simp only [List.mem_append] at hd; tauto))
    omega
  · have hold := hmade.below_side hsees (.inr ⟨t, ht, hmem⟩)
    have hnew := hfresh c hc
    omega

/-! ### The lowered plan -/

/-- The walks, as the state's columns hold them: of every number of hops up to the maximum. -/
def HoldsWalks (node : Repeat) (walk : Walk) (walks : Node) (state : WalkState) : Prop :=
  ∀ {engine : Engine} {tables : ℕ → Multiset Row} {states : States}
    {sourceRows hopRows : Multiset Row}, LawfulEngine engine →
    walk.source.rows engine tables states = .ok sourceRows →
    node.hop.rows engine tables states = .ok hopRows →
      walks.rows engine tables states =
        .ok (stateRows engine walk (carriedOf node walk) (HopColumns.of node) (countsOf node)
          state.columns
          (∑ k ∈ Finset.range (node.maxHops + 1), pathsFrom engine node walk sourceRows hopRows k))

/-- The plan is the result on top of nodes that hold the walks. -/
structure BuiltOn (node : Repeat) (walk : Walk) (plan walks : Node) (state : WalkState) : Prop where
  plan_eq : plan = resultNode node walk walks state (carriedOf node walk) (HopColumns.of node)
  walked : Walked node walk walks state (carriedOf node walk) (HopColumns.of node) (countsOf node)
  holds : HoldsWalks node walk walks state

section plan

variable (hsees : walk.Sees node) {n : ℕ} (hmade : MadeBefore node n)
include hsees hmade

lemma anchorColumns_nodup (counts : Bool) :
    (anchorColumns walk (carriedOf node walk) (HopColumns.of node) counts n).Nodup := by
  have hold : Below n (carriedOf node walk) :=
    fun c hc => hmade.below_sources hsees c (List.mem_append_left _ hc)
  refine List.nodup_append.mpr ⟨(carriedOf_carries hsees).nodup, nodup_freshColumns .., ?_⟩
  rintro c hc d hd rfl
  exact hold.disjoint _ hc hd

/-- With a loop, the plan is built exactly if the loop is. -/
lemma lower_loops (hloops : 1 < node.maxHops) :
    (LoopFits node walk → ∃ plan m walks state, lower node walk n = .ok (plan, m) ∧
      BuiltOn node walk plan walks state) ∧
    (¬LoopFits node walk → ∃ message, lower node walk n = .error message) := by
  have hreads := HopColumns.of_reads node
  have hvalues : (HopColumns.of node).values = [] := HopColumns.of_values hloops
  have hcounts : countsOf node = true := decide_eq_true (.inl hloops)
  have hlarge : node.maxHops > 1 := hloops
  let anchored := n + (anchorExprs walk (HopColumns.of node) true).length
  let anchorCols := anchorColumns walk (carriedOf node walk) (HopColumns.of node) true n
  let state := WalkState.of (freshColumns anchored (anchorCols.map Column.type))
    (carriedOf node walk).length walk.fromKeys.length 0 (HopColumns.of node).collected.length
  have hanchorTypes : anchorCols.map Column.type =
      stateTypes walk (carriedOf node walk) (HopColumns.of node) true := map_type_anchorColumns n
  have htypes : state.columns.map Column.type =
      stateTypes walk (carriedOf node walk) (HopColumns.of node) true :=
    (map_type_freshColumns ..).trans hanchorTypes
  have hlaid : state.Laid walk (carriedOf node walk) (HopColumns.of node) true := by
    have hof := WalkState.of_laid hreads (nodup_freshColumns ..) htypes
    rwa [hvalues] at hof
  have hbelow : Below (anchored + anchorCols.length) node.hop.outputColumns :=
    hmade.hop.mono (by omega)
  obtain ⟨count, -, hcount, -⟩ :=
    (readState_laid hreads htypes (anchored + anchorCols.length + 1)).hops_eq
  have hlower : lower node walk n =
      (makeFixedPoint node walk (anchorNode walk (carriedOf node walk) (HopColumns.of node) true n)
        anchorCols state (HopColumns.of node) >>= fun walks => Build.check
          (makeResult node walk walks state (carriedOf node walk) (HopColumns.of node)))
        (anchored + anchorCols.length) := by
    change (makeAnchor walk (carriedOf node walk) (HopColumns.of node) (countsOf node) >>= _) n = _
    rw [hcounts]
    refine (bind_ok (makeAnchor_eq n)).trans ?_
    rw [if_pos hlarge]
    refine (bind_ok (createColumns_eq (anchorCols.map Column.type) anchored)).trans ?_
    rw [List.length_map]
    rfl
  rw [hlower]
  have hmakes := makeFixedPoint_eq hsees hreads hlaid htypes hanchorTypes hvalues hbelow hcount
    (anchorNode walk (carriedOf node walk) (HopColumns.of node) true n)
  obtain ⟨c, hc, -⟩ := hlaid.hops_eq
  have hne : state.columns ≠ [] := List.ne_nil_of_mem hc
  have hanchor : (anchorNode walk (carriedOf node walk) (HopColumns.of node) true n).requiredStates =
      walk.source.requiredStates := rfl
  generalize hbuilt : Builder.fixedPoint _ _ _ _ _ _ = built at hmakes
  cases built with
  | error message =>
    refine ⟨fun hfits => ?_, fun _ => ⟨message, bind_error hmakes⟩⟩
    exact nomatch hbuilt.symm.trans ((fixedPoint_stepNode_iff hanchor hne).mpr ⟨hfits, rfl⟩)
  | ok walks =>
    obtain ⟨hfits, hwalks⟩ := (fixedPoint_stepNode_iff hanchor hne).mp hbuilt
    refine ⟨fun _ => ?_, fun hnot => absurd hfits hnot⟩
    have hwalked : Walked node walk walks state (carriedOf node walk) (HopColumns.of node)
        (countsOf node) := by
      refine walked_of_fresh hsees hmade (hcounts.symm ▸ hlaid) (hwalks ▸ rfl) fun c hc => ?_
      exact (Nat.le_add_right _ _).trans (le_id_of_mem_freshColumns hc)
    refine ⟨_, _, walks, state, (bind_ok hmakes).trans
      (check_ok (makeResult_eq hwalked hsees hreads (carriedOf_carries hsees)) _), rfl, hwalked, ?_⟩
    intro engine tables states sourceRows hopRows lawful hsource hhop
    rw [hwalks, hcounts]
    exact rows_fixedPoint lawful hsees hreads hfits hlaid htypes hvalues
      (hbelow.mono (Nat.le_succ _)) _ hcount (anchorColumns_nodup hsees hmade true) hsource hhop

/-- A column of the anchor is carried or new. -/
lemma anchorColumns_cases {counts : Bool} {c : Column}
    (hc : c ∈ anchorColumns walk (carriedOf node walk) (HopColumns.of node) counts n) :
    c ∈ carriedOf node walk ∨ n ≤ c.id ∧
      c ∉ carriedOf node walk ++ ((HopColumns.of node).values ++ (HopColumns.of node).collected) := by
  rcases List.mem_append.mp hc with hc | hc
  · exact .inl hc
  · have hnew := le_id_of_mem_freshColumns hc
    refine .inr ⟨hnew, fun hold => ?_⟩
    have := hmade.below_sources hsees c hold
    omega

/-- The walks of zero hops keep the columns they carry, so their substitution keeps them too. -/
lemma walked_anchor {state : WalkState} (counts : Bool) (hcounts : countsOf node = counts)
    (hstate : state = WalkState.of
      (anchorColumns walk (carriedOf node walk) (HopColumns.of node) counts n)
      (carriedOf node walk).length walk.fromKeys.length (HopColumns.of node).values.length
      (HopColumns.of node).collected.length) :
    Walked node walk (anchorNode walk (carriedOf node walk) (HopColumns.of node) counts n) state
      (carriedOf node walk) (HopColumns.of node) (countsOf node) := by
  have hlaid : state.Laid walk (carriedOf node walk) (HopColumns.of node) counts :=
    hstate ▸ WalkState.of_laid (HopColumns.of_reads node) (anchorColumns_nodup hsees hmade counts)
      (map_type_anchorColumns n)
  have hcolumns : state.columns =
      anchorColumns walk (carriedOf node walk) (HopColumns.of node) counts n := by
    rw [hstate]
    rfl
  have hkept : state.carried = carriedOf node walk := by
    rw [hstate]
    exact List.take_left
  refine walked_of (hcounts ▸ hlaid) hcolumns.symm (fun d hd => ?_) fun t ht c hc htarget => ?_
  · have hmem : d ∈ anchorColumns walk (carriedOf node walk) (HopColumns.of node) counts n := by
      rw [← hcolumns, hlaid.mem_columns]
      simp only [List.mem_append] at hd
      tauto
    rcases anchorColumns_cases hsees hmade hmem with hcarried | ⟨-, hnew⟩
    · have hsame : List.Forall₂ (· = ·) (carriedOf node walk) state.carried :=
        List.forall₂_eq_eq_eq ▸ hkept.symm
      obtain ⟨d', -, hlookup, rfl⟩ := PlanSubstitutions.lookup_zip hsame hcarried
      rw [PlanSubstitutions.target, toState, List.append_assoc, List.lookup_append, hlookup]
      rfl
    · exact target_of_not_mem state hnew
  · rw [hcolumns] at hc
    rcases anchorColumns_cases hsees hmade hc with hcarried | ⟨hnew, -⟩
    · exact hsees.source_target t ht ((carriedOf_carries hsees).subset hcarried) htarget
    · have := hmade.below_side hsees (.inr ⟨t, ht, htarget⟩)
      omega

/-- Without a loop, the plan is always built. -/
lemma lower_short (hshort : node.maxHops ≤ 1) :
    ∃ plan m walks state, lower node walk n = .ok (plan, m) ∧
      BuiltOn node walk plan walks state := by
  have hreads := HopColumns.of_reads node
  have hcarried := carriedOf_carries hsees
  have hsmall : ¬node.maxHops > 1 := hshort.not_gt
  let anchored := n + (anchorExprs walk (HopColumns.of node) (countsOf node)).length
  let anchorCols := anchorColumns walk (carriedOf node walk) (HopColumns.of node) (countsOf node) n
  have hanchorTypes : anchorCols.map Column.type =
      stateTypes walk (carriedOf node walk) (HopColumns.of node) (countsOf node) :=
    map_type_anchorColumns n
  have hlower : lower node walk n =
      (makeShortWalks node walk
        (anchorNode walk (carriedOf node walk) (HopColumns.of node) (countsOf node) n) anchorCols
        (carriedOf node walk) (HopColumns.of node) (countsOf node) >>= fun walks => Build.check
          (makeResult node walk walks.1 (WalkState.of walks.2 (carriedOf node walk).length
            walk.fromKeys.length (HopColumns.of node).values.length
            (HopColumns.of node).collected.length) (carriedOf node walk) (HopColumns.of node)))
        anchored := by
    change (makeAnchor walk (carriedOf node walk) (HopColumns.of node) (countsOf node) >>= _) n = _
    refine (bind_ok (makeAnchor_eq n)).trans ?_
    rw [if_neg hsmall]
    rfl
  have hbuilt {walks : Node} {columns : List Column} {m : ℕ}
      (hmakes : makeShortWalks node walk
        (anchorNode walk (carriedOf node walk) (HopColumns.of node) (countsOf node) n) anchorCols
        (carriedOf node walk) (HopColumns.of node) (countsOf node) anchored =
          .ok ((walks, columns), m))
      (hwalked : Walked node walk walks (WalkState.of columns (carriedOf node walk).length
        walk.fromKeys.length (HopColumns.of node).values.length
        (HopColumns.of node).collected.length) (carriedOf node walk) (HopColumns.of node)
        (countsOf node))
      (hholds : HoldsWalks node walk walks (WalkState.of columns (carriedOf node walk).length
        walk.fromKeys.length (HopColumns.of node).values.length
        (HopColumns.of node).collected.length)) :
      ∃ plan m walks state, lower node walk n = .ok (plan, m) ∧
        BuiltOn node walk plan walks state := by
    rw [hlower]
    exact ⟨_, m, walks, _, (bind_ok hmakes).trans
      (check_ok (makeResult_eq hwalked hsees hreads hcarried) m), rfl, hwalked, hholds⟩
  by_cases hone : node.maxHops = 1
  · have hmakes := makeShortWalks_one hsees hreads hcarried.subset hone hanchorTypes
      (anchorNode walk (carriedOf node walk) (HopColumns.of node) (countsOf node) n) anchored
    have hlaid := WalkState.of_laid hreads (nodup_freshColumns ..)
      ((map_type_freshColumns (anchored + anchorCols.length) _).trans hanchorTypes)
    refine hbuilt hmakes (walked_of_fresh hsees hmade hlaid rfl fun c hc => ?_) ?_
    · have hle : anchored + anchorCols.length ≤ c.id := le_id_of_mem_freshColumns hc
      omega
    · intro engine tables states sourceRows hopRows lawful hsource hhop
      rw [hone]
      exact rows_unionAll lawful hsees hreads hcarried.subset
        (anchorColumns_nodup hsees hmade (countsOf node)) hsource hhop
  · have hzero : node.maxHops = 0 := by omega
    refine hbuilt (makeShortWalks_zero hone _ anchored)
      (walked_anchor hsees hmade (countsOf node) rfl rfl) ?_
    intro engine tables states sourceRows hopRows lawful hsource hhop
    rw [rows_anchor hreads hsource, hzero, Finset.sum_range_one, stateRows, pathsFrom, Walks.paths,
      Multiset.map_map]
    rfl

end plan

/-! ### Its rows -/

/-- The rows for the walks of a number of hops that arrive, from the side they leave from. -/
def arrivals (engine : Engine) (node : Repeat) (walk : Walk)
    (sourceRows hopRows targetRows : Multiset Row) (k : ℕ) : Multiset Row :=
  match walk.target with
  | some _ =>
      (Walks.walks (node.sameVertex engine) (vertexOf engine walk.hopFrom)
        (vertexOf engine walk.hopTo) sourceRows (vertexOf engine walk.fromKeys) hopRows targetRows
        (vertexOf engine walk.toKeys) k).map
          fun w => loweredRow node walk (HopColumns.of node) (w.1, w.2.1) w.2.2
  | none =>
      (Walks.closedWalks (node.sameVertex engine) (vertexOf engine walk.hopFrom)
        (vertexOf engine walk.hopTo) sourceRows (vertexOf engine walk.fromKeys) hopRows
        (vertexOf engine walk.toKeys) k).map
          fun w => loweredRow node walk (HopColumns.of node) w w.1

section rows

variable {sourceRows hopRows targetRows : Multiset Row}

/-- Of the walks of up to the maximum of hops, those that return have enough. -/
lemma bind_returns {β : Type} (f : Row × List Row → Multiset β) :
    ((∑ k ∈ Finset.range (node.maxHops + 1), pathsFrom engine node walk sourceRows hopRows k).filter
        (Returns engine node walk)).bind f =
      ∑ k ∈ Finset.Icc node.minHops node.maxHops,
        ((pathsFrom engine node walk sourceRows hopRows k).filter fun p =>
          walk.target = none → node.sameVertex engine (reachedVertex engine walk p)
            (vertexOf engine walk.toKeys p.1) = true).bind f := by
  let returning : Multiset (Row × List Row) →+ Multiset β :=
    { toFun := fun shown => (shown.filter (Returns engine node walk)).bind f
      map_zero' := by simp
      map_add' := by simp }
  have hlength (k : ℕ) : returning (pathsFrom engine node walk sourceRows hopRows k) =
      if node.minHops ≤ k then
        ((pathsFrom engine node walk sourceRows hopRows k).filter fun p =>
          walk.target = none → node.sameVertex engine (reachedVertex engine walk p)
            (vertexOf engine walk.toKeys p.1) = true).bind f
      else 0 := by
    change Multiset.bind _ f = _
    split
    · rename_i hle
      refine congrArg (Multiset.bind · f) (Multiset.filter_congr fun p hp => ?_)
      rw [Returns, length_of_mem_pathsFrom hp]
      exact and_iff_right hle
    · rename_i hlt
      rw [Multiset.filter_eq_nil.mpr fun p hp h => hlt (h.1.trans_eq (length_of_mem_pathsFrom hp))]
      exact Multiset.zero_bind f
  have hfew : (Finset.range (node.maxHops + 1)).filter (node.minHops ≤ ·) =
      Finset.Icc node.minHops node.maxHops := by
    ext k
    simp only [Finset.mem_filter, Finset.mem_range, Finset.mem_Icc]
    omega
  calc ((∑ k ∈ Finset.range (node.maxHops + 1), pathsFrom engine node walk sourceRows hopRows k).filter
        (Returns engine node walk)).bind f
      = ∑ k ∈ Finset.range (node.maxHops + 1),
          returning (pathsFrom engine node walk sourceRows hopRows k) := map_sum returning _ _
    _ = _ := by rw [Finset.sum_congr rfl fun k _ => hlength k, ← Finset.sum_filter, hfew]

/-- The plan has one row for each walk of between the minimum and the maximum of hops that
arrives. -/
theorem BuiltOn.rows (lawful : LawfulEngine engine) (hsees : walk.Sees node) {plan walks : Node}
    {state : WalkState} (hbuilt : BuiltOn node walk plan walks state) {tables : ℕ → Multiset Row}
    {states : States} (hsource : walk.source.rows engine tables states = .ok sourceRows)
    (hhop : node.hop.rows engine tables states = .ok hopRows)
    (htargetRows : ∀ t, walk.target = some t → t.rows engine tables states = .ok targetRows) :
    plan.rows engine tables states =
      .ok (∑ k ∈ Finset.Icc node.minHops node.maxHops,
        arrivals engine node walk sourceRows hopRows targetRows k) := by
  have hreads := HopColumns.of_reads node
  have hcarried := carriedOf_carries hsees
  have hrows := hbuilt.holds lawful hsource hhop
  have hshort : ∀ p ∈ ∑ k ∈ Finset.range (node.maxHops + 1),
      pathsFrom engine node walk sourceRows hopRows k, p.2.length < 2 ^ 62 := by
    intro p hp
    obtain ⟨k, hk, hp⟩ := Multiset.mem_sum.mp hp
    have hmax := node.maxHops_lt
    rw [length_of_mem_pathsFrom hp]
    rw [Finset.mem_range] at hk
    omega
  rw [hbuilt.plan_eq]
  cases htarget : walk.target with
  | none =>
    rw [rows_resultNode_none hbuilt.walked hsees hreads hcarried htarget hrows hshort,
      ← Multiset.bind_singleton, bind_returns]
    refine congrArg Except.ok (Finset.sum_congr rfl fun k _ => ?_)
    simp only [arrivals, htarget]
    rw [Multiset.bind_singleton, Walks.closedWalks_eq_paths]
    refine congrArg (Multiset.map _) (Multiset.filter_congr fun p _ => ?_)
    simp [reachedVertex]
  | some target =>
    rw [rows_resultNode_some hbuilt.walked hsees hreads hcarried htarget hrows hshort
      (htargetRows target htarget), bind_returns]
    refine congrArg Except.ok (Finset.sum_congr rfl fun k _ => ?_)
    simp only [arrivals, htarget]
    rw [Walks.walks_eq_paths, Multiset.map_bind]
    have hall : (pathsFrom engine node walk sourceRows hopRows k).filter (fun p =>
        some target = none → node.sameVertex engine (reachedVertex engine walk p)
          (vertexOf engine walk.toKeys p.1) = true) =
        pathsFrom engine node walk sourceRows hopRows k :=
      Multiset.filter_eq_self.mpr fun p _ h => by cases h
    rw [hall]
    refine Multiset.bind_congr fun p _ => ?_
    rw [Multiset.map_map]
    rfl

end rows

/-! ### From either side -/

/-- The value the plan gives a source for a walk. -/
def plannedValue (node : Repeat) (startRow : Row) (hops : List Row) (endRow : Row)
    (source : Column) : Value :=
  if node.hopCount = some source then bigint hops.length
  else if source ∈ (HopColumns.of node).values then valueOn hops source
  else if source ∈ (HopColumns.of node).collected then .list (.ofList (hops.map (read · source)))
  else if source ∈ node.start.outputColumns then read startRow source
  else read endRow source

/-- The row the plan gives for a walk. -/
def plannedRow (node : Repeat) (startRow : Row) (hops : List Row) (endRow : Row) : Row :=
  rowOf node.outputColumns
    (node.effectiveSourceColumns.map (plannedValue node startRow hops endRow))

/-- A walk from the side it leaves from is the same walk from its start. -/
structure Views (node : Repeat) (walk : Walk) (p : Row × List Row) (arrival startRow : Row)
    (hops : List Row) (endRow : Row) : Prop where
  length : p.2.length = hops.length
  valueOn : ∀ c, valueOn p.2 c = valueOn hops c
  collectedOn : ∀ c, collectedOn walk.fromEnd p.2 c = .list (.ofList (hops.map (read · c)))
  start : ∀ c ∈ node.start.outputColumns,
    read (if c ∈ (walk.target.map Node.outputColumns).getD [] then arrival else p.1) c =
      read startRow c
  endRow : ∀ c ∈ node.endColumns,
    read (if c ∈ (walk.target.map Node.outputColumns).getD [] then arrival else p.1) c =
      read endRow c

lemma Views.loweredRow_eq (hsees : walk.Sees node) {p : Row × List Row}
    {arrival startRow endRow : Row} {hops : List Row}
    (hviews : Views node walk p arrival startRow hops endRow) :
    loweredRow node walk (HopColumns.of node) p arrival = plannedRow node startRow hops endRow := by
  rw [loweredRow, plannedRow]
  refine congrArg _ (List.map_congr_left fun source hsource => ?_)
  rw [loweredValue, plannedValue, hviews.length]
  split
  · rfl
  · rename_i hcount
    have hmem : source ∈ (HopColumns.of node).values ++ (HopColumns.of node).collected →
        source ∈ node.hop.outputColumns := (HopColumns.of_reads node).mem_hop source
    rw [List.mem_append] at hmem
    have htarget : source ∈ node.hop.outputColumns →
        source ∉ (walk.target.map Node.outputColumns).getD [] := by
      intro hhop hside
      cases ht : walk.target with
      | none => simp [ht] at hside
      | some t => exact hsees.target_hop t ht (by simpa [ht] using hside) hhop
    rw [stateValueOf, hviews.valueOn, hviews.collectedOn]
    by_cases hvalues : source ∈ (HopColumns.of node).values
    · rw [if_neg (htarget (hmem (.inl hvalues))), if_pos hvalues, if_pos hvalues]
    by_cases hcollected : source ∈ (HopColumns.of node).collected
    · rw [if_neg (htarget (hmem (.inr hcollected))), if_neg hvalues, if_pos hcollected,
        if_neg hvalues, if_pos hcollected]
    rw [if_neg hvalues, if_neg hcollected, if_neg hvalues, if_neg hcollected]
    obtain ⟨output, -, hpair⟩ := exists_mem_zip node.sources_length hsource
    have hside : source ∈ node.start.outputColumns ∨ source ∈ node.endColumns := by
      have hcarries : node.Carries _ _ := node.carries _ hpair
      rw [Repeat.Key.Carries] at hcarries
      split_ifs at hcarries with hsome hside
      · exact absurd (hsome.trans (congrArg some hcarries.1.symm)) hcount
      · exact List.mem_append.mp hside
      · have hread := HopColumns.mem_collect hpair hcarries.1 List.not_mem_nil
        exact absurd (List.mem_append.mp hread) (not_or.mpr ⟨hvalues, hcollected⟩)
    rw [← apply_ite (read · source)]
    by_cases hstart : source ∈ node.start.outputColumns
    · rw [if_pos hstart]
      exact hviews.start source hstart
    · rw [if_neg hstart]
      exact hviews.endRow source (hside.resolve_left hstart)

lemma valueOn_of_length_ne {hops : List Row} (h : hops.length ≠ 1) (c : Column) :
    valueOn hops c = .null := by
  rw [valueOn]
  rintro hop rfl
  exact h rfl

lemma valueOn_reverse (hops : List Row) (c : Column) : valueOn hops.reverse c = valueOn hops c := by
  by_cases h : hops.length = 1
  · obtain ⟨hop, rfl⟩ := List.length_eq_one_iff.mp h
    rfl
  · rw [valueOn_of_length_ne h, valueOn_of_length_ne (by rwa [List.length_reverse])]

/-- From the start, a walk is itself. -/
lemma views_fromStart (node : Repeat) (startRow : Row) (hops : List Row) (endRow : Row) :
    Views node (fromStart node) (startRow, hops) endRow startRow hops endRow where
  length := rfl
  valueOn _ := rfl
  collectedOn _ := rfl
  start c hc := by
    split
    · rename_i hside
      exact absurd hside (node.start_end hc)
    · rfl
  endRow c hc := by
    rw [if_pos (show c ∈ ((fromStart node).target.map Node.outputColumns).getD [] from hc)]

/-- From the end, its hops are met in reverse. -/
lemma views_fromEnd (node : Repeat) (endNode : Node) (startRow : Row) (hops : List Row)
    (endRow : Row) :
    Views node (fromEnd node endNode) (endRow, hops) startRow startRow hops.reverse endRow where
  length := List.length_reverse.symm
  valueOn c := (valueOn_reverse hops c).symm
  collectedOn c := rfl
  start c hc := by
    rw [if_pos (show c ∈ ((fromEnd node endNode).target.map Node.outputColumns).getD [] from hc)]
  endRow c hc := by
    split
    · rename_i hside
      exact absurd hc (node.start_end hside)
    · rfl

section planned

variable {startRows hopRows endRows : Multiset Row}

lemma arrivals_fromStart (k : ℕ) :
    arrivals engine node (fromStart node) startRows hopRows endRows k =
      (node.walksOf engine startRows hopRows endRows k).map
        fun w => plannedRow node w.1 w.2.1 w.2.2 := by
  have hsees := sees_fromStart node
  have htarget : (fromStart node).target = node.endNode := rfl
  rw [arrivals, htarget, Repeat.walksOf]
  cases hend : node.endNode with
  | none =>
    dsimp only
    rw [Multiset.map_map]
    exact Multiset.map_congr rfl fun w _ =>
      (views_fromStart node w.1 w.2 w.1).loweredRow_eq hsees
  | some endNode =>
    exact Multiset.map_congr rfl fun w _ =>
      (views_fromStart node w.1 w.2.1 w.2.2).loweredRow_eq hsees

lemma arrivals_fromEnd (lawful : LawfulEngine engine) {endNode : Node}
    (hend : node.endNode = some endNode) (k : ℕ) :
    arrivals engine node (fromEnd node endNode) endRows hopRows startRows k =
      (node.walksOf engine startRows hopRows endRows k).map
        fun w => plannedRow node w.1 w.2.1 w.2.2 := by
  have hsees := sees_fromEnd node hend
  have htarget : (fromEnd node endNode).target = some node.start := rfl
  rw [arrivals, htarget, Repeat.walksOf, hend]
  dsimp only
  have symm : ∀ a b, node.sameVertex engine a b = node.sameVertex engine b a :=
    keysMatch_comm lawful _
  conv_rhs => rw [Walks.walks_eq_reverse symm, Multiset.map_map]
  exact Multiset.map_congr rfl fun w _ =>
    (views_fromEnd node endNode w.2.2 w.2.1 w.1).loweredRow_eq hsees

/-- Whichever side the walks leave from, the plan has one row for each walk from a start row to an
end row. -/
theorem BuiltOn.rows_walkOf (lawful : LawfulEngine engine) {estimates : Node → Option ℚ}
    {plan walks : Node} {state : WalkState}
    (hbuilt : BuiltOn node (walkOf estimates node) plan walks state) {tables : ℕ → Multiset Row}
    {states : States} (hstart : node.start.rows engine tables states = .ok startRows)
    (hhop : node.hop.rows engine tables states = .ok hopRows)
    (hend : ∀ e, node.endNode = some e → e.rows engine tables states = .ok endRows) :
    plan.rows engine tables states =
      .ok ((node.walksWithin engine startRows hopRows endRows).map
        fun w => plannedRow node w.1 w.2.1 w.2.2) := by
  have hmap : (node.walksWithin engine startRows hopRows endRows).map
      (fun w => plannedRow node w.1 w.2.1 w.2.2) =
      ∑ k ∈ Finset.Icc node.minHops node.maxHops,
        (node.walksOf engine startRows hopRows endRows k).map
          fun w => plannedRow node w.1 w.2.1 w.2.2 :=
    map_sum (Multiset.mapAddMonoidHom _) _ _
  rw [hmap]
  rcases walkOf_cases estimates node with hwalk | ⟨endNode, hsome, hwalk⟩
  · rw [hwalk] at hbuilt
    rw [hbuilt.rows lawful (sees_fromStart node) hstart hhop hend]
    exact congrArg Except.ok (Finset.sum_congr rfl fun k _ => arrivals_fromStart k)
  · rw [hwalk] at hbuilt
    rw [hbuilt.rows lawful (sees_fromEnd node hsome) (hend endNode hsome) hhop
      fun t ht => Option.some.inj ht ▸ hstart]
    exact congrArg Except.ok (Finset.sum_congr rfl fun k _ => arrivals_fromEnd lawful hsome k)

end planned

end Verax.LowerRepeat.Lowering
