import Verax.LowerRepeat.Building

/-!
# The walks hop by hop

A Repeat seen from either side meets the same conditions (`Walk.Sees`). Its anchor has one row for
each walk of zero hops (`rows_anchor`), and extending the rows of walks by one hop gives one row for
each walk that goes on (`rows_extended`).
-/

namespace Verax.LowerRepeat.Lowering

open Verax.Lib Verax.Filters

/-! ### Either side -/

/-- The walk is the Repeat as seen from one of its sides. -/
structure Walk.Sees (walk : Walk) (node : Repeat) : Prop where
  source_hop : walk.source.outputColumns.Disjoint node.hop.outputColumns
  target_hop : ∀ t, walk.target = some t → t.outputColumns.Disjoint node.hop.outputColumns
  source_target : ∀ t, walk.target = some t →
    walk.source.outputColumns.Disjoint t.outputColumns
  fromKeys_read : ∀ e ∈ walk.fromKeys, e.columns ⊆ walk.source.outputColumns
  hopFrom_read : ∀ e ∈ walk.hopFrom, e.columns ⊆ node.hop.outputColumns
  hopTo_read : ∀ e ∈ walk.hopTo, e.columns ⊆ node.hop.outputColumns
  toKeys_read : ∀ e ∈ walk.toKeys, e.columns ⊆ (walk.target.getD walk.source).outputColumns
  from_types : walk.fromKeys.map Expr.type = node.startKeys.map Expr.type
  hopFrom_types : walk.hopFrom.map Expr.type = node.startKeys.map Expr.type
  hopTo_types : walk.hopTo.map Expr.type = node.startKeys.map Expr.type
  to_types : walk.toKeys.map Expr.type = node.startKeys.map Expr.type
  mem_sides : ∀ c, c ∈ node.start.outputColumns ++ node.endColumns ↔
    c ∈ walk.source.outputColumns ∨ ∃ t, walk.target = some t ∧ c ∈ t.outputColumns

lemma endColumns_eq {node : Repeat} {t : Node} (h : node.endNode = some t) :
    node.endColumns = t.outputColumns := by
  rw [Repeat.Key.endColumns, h]
  rfl

/-- The Repeat from its start. -/
def fromStart (node : Repeat) : Walk :=
  ⟨node.start, node.startKeys, node.hopSourceKeys, node.hopDestinationKeys, node.endNode,
    node.endKeys, false⟩

/-- The Repeat from its end. -/
def fromEnd (node : Repeat) (endNode : Node) : Walk :=
  ⟨endNode, node.endKeys, node.hopDestinationKeys, node.hopSourceKeys, some node.start,
    node.startKeys, true⟩

lemma walkOf_cases (estimates : Node → Option ℚ) (node : Repeat) :
    walkOf estimates node = fromStart node ∨
      ∃ endNode, node.endNode = some endNode ∧ walkOf estimates node = fromEnd node endNode := by
  rw [walkOf]
  split
  · rename_i endNode hfilter
    exact .inr ⟨endNode, (Option.filter_eq_some_iff.mp hfilter).1, rfl⟩
  · exact .inl rfl

lemma sees_fromStart (node : Repeat) : (fromStart node).Sees node where
  source_hop := node.start_hop
  target_hop t ht := endColumns_eq ht ▸ node.end_hop
  source_target t ht := endColumns_eq ht ▸ node.start_end
  fromKeys_read := node.startKeys_read
  hopFrom_read := node.hopSourceKeys_read
  hopTo_read := node.hopDestinationKeys_read
  toKeys_read := node.endKeys_read
  from_types := rfl
  hopFrom_types := node.hopSource_types
  hopTo_types := node.hopDestination_types
  to_types := node.end_types
  mem_sides c := by
    rw [List.mem_append, Repeat.Key.endColumns, fromStart]
    cases node.endNode <;> simp

lemma sees_fromEnd (node : Repeat) {endNode : Node} (h : node.endNode = some endNode) :
    (fromEnd node endNode).Sees node := by
  have hend := endColumns_eq h
  exact {
    source_hop := hend ▸ node.end_hop
    target_hop := fun t ht => Option.some.inj ht ▸ node.start_hop
    source_target := fun t ht => Option.some.inj ht ▸ (hend ▸ node.start_end).symm
    fromKeys_read := by
      have hread := node.endKeys_read
      rwa [h] at hread
    hopFrom_read := node.hopDestinationKeys_read
    hopTo_read := node.hopSourceKeys_read
    toKeys_read := node.startKeys_read
    from_types := node.end_types
    hopFrom_types := node.hopDestination_types
    hopTo_types := node.hopSource_types
    to_types := rfl
    mem_sides := fun c => by
      rw [hend, fromEnd]
      simp [or_comm] }

/-- The pass looks at a Repeat from one of its sides. -/
lemma walkOf_sees (estimates : Node → Option ℚ) (node : Repeat) :
    (walkOf estimates node).Sees node := by
  rcases walkOf_cases estimates node with h | ⟨endNode, hend, h⟩
  · exact h ▸ sees_fromStart node
  · exact h ▸ sees_fromEnd node hend

/-- The hop columns the result reads are columns of the hop, none of them twice, and the arrays hold
values of their types. -/
structure HopColumns.Reads (hops : HopColumns) (node : Repeat) : Prop where
  nodup : (hops.values ++ hops.collected).Nodup
  mem_hop : ∀ c ∈ hops.values ++ hops.collected, c ∈ node.hop.outputColumns
  arrayTypes : hops.arrayTypes = hops.collected.map fun c => .array c.type

/-- What a Repeat may do with a source of the hop. -/
lemma carries_hop {node : Repeat} {source output : Column} (hhop : source ∈ node.hop.outputColumns)
    (hmem : (source, output) ∈ node.effectiveSourceColumns.zip node.outputColumns) :
    output.type = .array source.type ∨ output.type = source.type ∧ node.maxHops ≤ 1 := by
  have hcarries : node.Carries source output := node.carries _ hmem
  rw [Repeat.Key.Carries] at hcarries
  split_ifs at hcarries with hcount hside
  · exact absurd (by simp [hcarries.1 ▸ hhop]) (node.hopCount_fresh _ hcount)
  · rcases List.mem_append.mp hside with h | h
    · exact absurd hhop (node.start_hop h)
    · exact absurd hhop (node.end_hop h)
  · exact hcarries.2.2

lemma HopColumns.of_reads (node : Repeat) : (HopColumns.of node).Reads node where
  nodup := (HopColumns.collect_nodup _ _).1
  mem_hop c hc := ((HopColumns.collect_nodup _ _).2 c hc).1
  arrayTypes := by
    have htypes := (HopColumns.collect_types node.hop.outputColumns
      (node.effectiveSourceColumns.zip node.outputColumns) []).2
    have heq : List.Forall₂ (fun c type => type = SqlType.array c.type)
        (HopColumns.of node).collected (HopColumns.of node).arrayTypes := by
      refine htypes.imp fun c type ⟨hhop, output, hmem, houtput, hne⟩ => ?_
      rcases carries_hop hhop hmem with harray | ⟨hsame, -⟩
      · exact houtput.symm.trans harray
      · exact absurd (houtput.symm.trans hsame) hne
    rw [← List.forall₂_eq_eq_eq, List.forall₂_map_right_iff]
    exact heq.flip

/-- A Repeat that loops collects all it reads of the hop. -/
lemma HopColumns.of_values {node : Repeat} (h : 1 < node.maxHops) :
    (HopColumns.of node).values = [] := by
  refine List.eq_nil_iff_forall_not_mem.mpr fun c hc => ?_
  obtain ⟨output, hmem, htype⟩ := (HopColumns.collect_types node.hop.outputColumns
      (node.effectiveSourceColumns.zip node.outputColumns) []).1 c hc
  have hhop := ((HopColumns.collect_nodup _ _).2 c (List.mem_append_left _ hc)).1
  rcases carries_hop hhop hmem with harray | ⟨-, hle⟩
  · have := congrArg sizeOf (htype.symm.trans harray)
    simp at this
  · omega

/-! ### The state of a walk -/

/-- The value of a hop column on a walk of one hop. -/
def valueOn (hops : List Row) (c : Column) : Value :=
  match hops with
  | [hop] => read hop c
  | _ => .null

/-- The values of a hop column on a walk, from start to end. -/
def collectedOn (fromEnd : Bool) (hops : List Row) (c : Column) : Value :=
  .list (.ofList ((if fromEnd then hops.reverse else hops).map (read · c)))

section state

variable (engine : Engine) (walk : Walk) (carried : List Column) (hops : HopColumns)
  (counts : Bool)

/-- The vertex a walk has reached. -/
def reachedVertex (p : Row × List Row) : List Value :=
  Walks.reached (vertexOf engine walk.hopTo) (vertexOf engine walk.fromKeys p.1) p.2

/-- The values of the walks' columns for a walk, known by the row it left from and its hops. -/
def stateValues (p : Row × List Row) : List Value :=
  readAll p.1 carried ++ reachedVertex engine walk p ++ hops.values.map (valueOn p.2) ++
    hops.collected.map (collectedOn walk.fromEnd p.2) ++
    if counts then [bigint p.2.length] else []

/-- The types of the walks' columns. -/
def stateTypes : List SqlType :=
  carried.map Column.type ++ walk.fromKeys.map Expr.type ++ hops.values.map Column.type ++
    hops.arrayTypes ++ if counts then [.bigint] else []

end state

variable {engine : Engine} {node : Repeat} {walk : Walk} {hops : HopColumns}
  {carried : List Column} {counts : Bool}

variable (engine) in
lemma fits_reachedVertex (hsees : walk.Sees node) (p : Row × List Row) :
    List.Forall₂ (fun type value => Value.conform type value = value)
      (walk.fromKeys.map Expr.type) (reachedVertex engine walk p) := by
  have hvalues (keys : List Expr) (row : Row) :
      List.Forall₂ (fun type value => Value.conform type value = value)
        (keys.map Expr.type) (vertexOf engine keys row) := by
    rw [vertexOf, List.forall₂_map_left_iff, List.forall₂_map_right_iff]
    exact List.forall₂_same.mpr fun e _ => engine.conform_eval row e
  rcases List.eq_nil_or_concat p.2 with hnil | ⟨hs, h, hconcat⟩
  · rw [reachedVertex, hnil]
    exact hvalues walk.fromKeys p.1
  · rw [reachedVertex, hconcat, List.concat_eq_append, Walks.reached_concat, hsees.from_types, ← hsees.hopTo_types]
    exact hvalues walk.hopTo h

/-- The values of a walk fit the types of the walks' columns. -/
lemma fits_stateValues (hsees : walk.Sees node) (hreads : hops.Reads node) {columns : List Column}
    (hcolumns : columns.map Column.type = stateTypes walk carried hops counts)
    (p : Row × List Row) : Fits columns (stateValues engine walk carried hops counts p) := by
  rw [fits_iff, hcolumns, stateTypes, stateValues]
  refine List.rel_append (List.rel_append (List.rel_append (List.rel_append ?_ ?_) ?_) ?_) ?_
  · exact fits_iff.mp (fits_readAll p.1 carried)
  · exact fits_reachedVertex engine hsees p
  · rw [List.forall₂_map_left_iff, List.forall₂_map_right_iff]
    refine List.forall₂_same.mpr fun c _ => ?_
    unfold valueOn
    split
    · exact conform_read _ c
    · exact Value.conform_null _
  · rw [hreads.arrayTypes, List.forall₂_map_left_iff, List.forall₂_map_right_iff]
    exact List.forall₂_same.mpr fun c _ => rfl
  · cases counts
    · exact .nil
    · exact .cons rfl .nil

/-! ### Walks of zero hops -/

/-- What the anchor computes beside the carried columns. -/
def anchorExprs (walk : Walk) (hops : HopColumns) (counts : Bool) : List Expr :=
  walk.fromKeys ++ hops.values.map (fun c => makeNull c.type) ++ emptyArrays hops ++
    if counts then [bigintLiteral 0] else []

lemma type_anchorExprs : carried.map Column.type ++ (anchorExprs walk hops counts).map Expr.type =
    stateTypes walk carried hops counts := by
  have hnulls : (hops.values.map fun c => makeNull c.type).map Expr.type =
      hops.values.map Column.type := by simp [makeNull, Function.comp_def, Expr.type]
  have harrays : (emptyArrays hops).map Expr.type = hops.arrayTypes := by
    simp [emptyArrays, makeEmptyArray, Function.comp_def, Expr.type]
  rw [anchorExprs, stateTypes, List.map_append, List.map_append, List.map_append, hnulls, harrays]
  cases counts <;> simp [bigintLiteral, Expr.type]

/-- The columns of the anchor. -/
def anchorColumns (walk : Walk) (carried : List Column) (hops : HopColumns) (counts : Bool)
    (n : ℕ) : List Column :=
  carried ++ freshColumns n ((anchorExprs walk hops counts).map Expr.type)

/-- The anchor. -/
def anchorNode (walk : Walk) (carried : List Column) (hops : HopColumns) (counts : Bool)
    (n : ℕ) : Node :=
  .project walk.source (toExprs carried ++ anchorExprs walk hops counts)
    (anchorColumns walk carried hops counts n)

lemma map_type_anchorColumns (n : ℕ) : (anchorColumns walk carried hops counts n).map Column.type =
    stateTypes walk carried hops counts := by
  rw [anchorColumns, List.map_append, map_type_freshColumns, type_anchorExprs]

lemma makeAnchor_eq (n : ℕ) : makeAnchor walk carried hops counts n =
    .ok (anchorNode walk carried hops counts n, n + (anchorExprs walk hops counts).length) := by
  rw [makeAnchor]
  change (createColumns ((anchorExprs walk hops counts).map Expr.type) >>= _) n = _
  rw [bind_ok (createColumns_eq _ n), check_ok (a := anchorNode walk carried hops counts n),
    List.length_map]
  have hlength : (anchorColumns walk carried hops counts n).length =
      (toExprs carried ++ anchorExprs walk hops counts).length := by
    simp [anchorColumns, toExprs]
  exact if_pos hlength

/-- Empty arrays hold the values of no hop. -/
lemma eval_emptyArrays (hreads : hops.Reads node) (row : Row) :
    (emptyArrays hops).map (engine.eval row) =
      hops.collected.map (collectedOn walk.fromEnd []) := by
  rw [emptyArrays, hreads.arrayTypes, List.map_map, List.map_map]
  refine List.map_congr_left fun c _ => ?_
  rw [Function.comp_apply, Function.comp_apply, makeEmptyArray, Engine.eval, collectedOn]
  simp [Value.conform, Values.ofList]

lemma eval_bigintLiteral (row : Row) (value : ℤ) :
    engine.eval row (bigintLiteral value) = bigint value := by
  rw [bigintLiteral, Engine.eval]
  rfl

/-- The anchor has a row for each walk of zero hops. -/
lemma rows_anchor (hreads : hops.Reads node) {tables : ℕ → Multiset Row} {states : States}
    {sourceRows : Multiset Row} (hrows : walk.source.rows engine tables states = .ok sourceRows)
    (n : ℕ) :
    (anchorNode walk carried hops counts n).rows engine tables states =
      .ok (sourceRows.map fun row => rowOf (anchorColumns walk carried hops counts n)
        (stateValues engine walk carried hops counts (row, []))) := by
  have hvalues (row : Row) : (toExprs carried ++ anchorExprs walk hops counts).map
      (engine.eval row) = stateValues engine walk carried hops counts (row, []) := by
    have hnulls : (hops.values.map fun c => makeNull c.type).map (engine.eval row) =
        hops.values.map (valueOn []) := by
      rw [List.map_map]
      refine List.map_congr_left fun c _ => ?_
      rw [Function.comp_apply, makeNull, Engine.eval, Value.conform_null, valueOn]
      rintro hop ⟨⟩
    have harrays : (emptyArrays hops).map (engine.eval row) =
        hops.collected.map (collectedOn walk.fromEnd []) := eval_emptyArrays hreads row
    rw [stateValues, List.map_append, map_eval_toExprs, anchorExprs, List.map_append,
      List.map_append, List.map_append, hnulls, harrays]
    cases counts
    · simp [reachedVertex, vertexOf]
    · simp [reachedVertex, vertexOf, eval_bigintLiteral]
  rw [anchorNode, Node.rows, hrows]
  change Except.ok _ = _
  simp only [hvalues]

/-! ### One more hop -/

/-- How a node that computes walks is read: where the vertices reached, the carried columns, the
arrays and the hop counts are. -/
structure Reading where
  vertex : List Expr
  carried : List Column
  arrays : List Expr
  hops : Option Expr

/-- The reading uses the node's columns, which are not columns of the hop, with fitting types. -/
structure Reading.Of (reading : Reading) (walks : Node) (node : Repeat) (collected : List Column) :
    Prop where
  disjoint : walks.outputColumns.Disjoint node.hop.outputColumns
  carried_read : reading.carried ⊆ walks.outputColumns
  arrays_read : ∀ e ∈ reading.arrays, e.columns ⊆ walks.outputColumns
  hops_read : ∀ e ∈ reading.hops, e.columns ⊆ walks.outputColumns
  vertex_types : reading.vertex.map Expr.type = node.startKeys.map Expr.type
  arrays_types : List.Forall₂ (fun c e => e.type = .array c.type) collected reading.arrays

/-- The row shows the walk. -/
structure Reading.Shows (reading : Reading) (engine : Engine) (walk : Walk)
    (carried collected : List Column) (counts : Bool) (row : Row) (p : Row × List Row) : Prop where
  vertex : reading.vertex.map (engine.eval row) = reachedVertex engine walk p
  carried : readAll row reading.carried = readAll p.1 carried
  arrays : reading.arrays.map (engine.eval row) = collected.map (collectedOn walk.fromEnd p.2)
  hops : reading.hops.map (engine.eval row) = if counts then some (bigint p.2.length) else none

/-- The columns of walks joined with the hop. -/
def joinColumns (walk : Walk) (walks : Node) (hopValues collected : List Column) : List Column :=
  appendColumnsRead (toExprs collected) <| appendColumnsRead (toExprs hopValues) <|
    appendColumnsRead walk.hopTo walks.outputColumns

/-- The arrays with the hop's values added. -/
def extendedArrays (walk : Walk) (collected : List Column) (arrays : List Expr) : List Expr :=
  List.zipWith
    (fun c array => if walk.fromEnd then makeArrayPrepend (.column c) array
      else makeArrayAppend array (.column c))
    collected arrays

/-- What is computed of walks joined with the hop. -/
def extendedExprs (walk : Walk) (reading : Reading) (hopValues collected : List Column) :
    List Expr :=
  toExprs reading.carried ++ walk.hopTo ++ toExprs hopValues ++
    extendedArrays walk collected reading.arrays ++
    (reading.hops.map fun hops => makeBigintAdd hops (bigintLiteral 1)).toList

/-- The walks extended by one hop. -/
def extendedNode (node : Repeat) (walk : Walk) (walks : Node) (reading : Reading)
    (hopValues collected : List Column) (types : List SqlType) (n : ℕ) : Node :=
  .project (.join walks node.hop reading.vertex walk.hopFrom
      (joinColumns walk walks hopValues collected))
    (extendedExprs walk reading hopValues collected) (freshColumns n types)

section extend

variable {walks : Node} {reading : Reading} {hopValues collected : List Column}

lemma mem_joinColumns {c : Column} : c ∈ joinColumns walk walks hopValues collected ↔
    c ∈ walks.outputColumns ∨ (∃ e ∈ walk.hopTo, c ∈ e.columns) ∨ c ∈ hopValues ∨
      c ∈ collected := by
  have hread (columns : List Column) :
      (∃ e ∈ toExprs columns, c ∈ e.columns) ↔ c ∈ columns := by
    simp [toExprs, Expr.columns]
  rw [joinColumns, mem_appendColumnsRead, mem_appendColumnsRead, mem_appendColumnsRead, hread,
    hread]
  simp only [or_assoc]

lemma extendByOneHop_eq (hsees : walk.Sees node) (hreading : reading.Of walks node collected)
    (hhop : ∀ c ∈ hopValues ++ collected, c ∈ node.hop.outputColumns) {columns : List Column}
    (hlength : columns.length = (extendedExprs walk reading hopValues collected).length) (n : ℕ) :
    extendByOneHop node walk walks reading.vertex reading.carried hopValues collected
        reading.arrays reading.hops columns n =
      .ok (extendedNode node walk walks reading hopValues collected (columns.map Column.type) n,
        n + columns.length) := by
  have hkeys : reading.vertex.length = walk.hopFrom.length := by
    have := congrArg List.length (hreading.vertex_types.trans hsees.hopFrom_types.symm)
    simpa using this
  have hjoined : ∀ c ∈ joinColumns walk walks hopValues collected,
      c ∈ walks.outputColumns ∨ c ∈ node.hop.outputColumns := by
    intro c hc
    rcases mem_joinColumns.mp hc with h | ⟨e, he, h⟩ | h | h
    · exact .inl h
    · exact .inr (hsees.hopTo_read e he h)
    · exact .inr (hhop c (List.mem_append_left _ h))
    · exact .inr (hhop c (List.mem_append_right _ h))
  have hjoin : Builder.join walks node.hop reading.vertex walk.hopFrom
      (joinColumns walk walks hopValues collected) =
      .ok (.join walks node.hop reading.vertex walk.hopFrom
        (joinColumns walk walks hopValues collected)) := by
    rw [Builder.join, if_neg (not_not.mpr hkeys), if_pos hjoined]
  have hproject : Builder.project (.join walks node.hop reading.vertex walk.hopFrom
        (joinColumns walk walks hopValues collected))
        (extendedExprs walk reading hopValues collected)
        (freshColumns n (columns.map Column.type)) =
      .ok (extendedNode node walk walks reading hopValues collected (columns.map Column.type) n) :=
    if_pos (by rw [length_freshColumns, List.length_map, hlength])
  rw [extendByOneHop]
  refine (bind_ok (check_ok hjoin n)).trans ?_
  refine (bind_ok (createColumns_eq (columns.map Column.type) n)).trans ?_
  rw [List.length_map]
  exact check_ok hproject _

/-- The arrays of a walk that goes on. -/
lemma collectedOn_concat (fromEnd : Bool) (hs : List Row) (h : Row) (c : Column) :
    collectedOn fromEnd (hs ++ [h]) c =
      if fromEnd then .list (.ofList (read h c :: (hs.reverse.map (read · c))))
      else .list (.ofList (hs.map (read · c) ++ [read h c])) := by
  cases fromEnd <;> simp [collectedOn]

/-- Arrays that hold the values on a walk's hops are extended by those on its next hop. -/
lemma eval_extendedArrays (lawful : LawfulEngine engine) {row joined h : Row} {hs : List Row} :
    ∀ {collected : List Column} {arrays : List Expr},
      List.Forall₂ (fun c e => e.type = .array c.type) collected arrays →
      arrays.map (engine.eval row) = collected.map (collectedOn walk.fromEnd hs) →
      (∀ e ∈ arrays, engine.eval joined e = engine.eval row e) →
      (∀ c ∈ collected, engine.eval joined (.column c) = read h c) →
        (extendedArrays walk collected arrays).map (engine.eval joined) =
          collected.map (collectedOn walk.fromEnd (hs ++ [h]))
  | [], [], _, _, _, _ => rfl
  | c :: collected, e :: arrays, htypes, hvalues, harrays, hcollected => by
      obtain ⟨htype, htypes⟩ := List.forall₂_cons.mp htypes
      obtain ⟨hvalue, hvalues⟩ := List.cons.inj hvalues
      have hrest := eval_extendedArrays lawful htypes hvalues
        (fun e he => harrays e (List.mem_cons_of_mem _ he))
        fun c hc => hcollected c (List.mem_cons_of_mem _ hc)
      have hc := hcollected c List.mem_cons_self
      have he := (harrays e List.mem_cons_self).trans hvalue
      rw [extendedArrays, List.zipWith_cons_cons, List.map_cons, List.map_cons]
      refine congrArg₂ List.cons ?_ hrest
      rw [collectedOn_concat]
      split
      · rename_i hend
        have hvalues : [Expr.column c, e].map (engine.eval joined) =
            [read h c, .list (.ofList (hs.reverse.map (read · c)))] := by
          rw [List.map_cons, List.map_cons, List.map_nil, hc, he, collectedOn, if_pos hend]
        rw [makeArrayPrepend, Engine.eval_apply, htype, hvalues]
        exact lawful.prepend ..
      · rename_i hend
        have hvalues : [e, Expr.column c].map (engine.eval joined) =
            [.list (.ofList (hs.map (read · c))), read h c] := by
          rw [List.map_cons, List.map_cons, List.map_nil, hc, he, collectedOn, if_neg hend]
        rw [makeArrayAppend, Engine.eval_apply, htype, hvalues]
        exact lawful.append ..

/-- What is computed on the row of a walk joined with a hop shows the walk that goes on. -/
lemma eval_extendedExprs (lawful : LawfulEngine engine) (hsees : walk.Sees node)
    (hreading : reading.Of walks node collected)
    (hhop : ∀ c ∈ hopValues ++ collected, c ∈ node.hop.outputColumns) {row : Row}
    {p : Row × List Row} (hshows : reading.Shows engine walk carried collected counts row p)
    (hvalues : hopValues = [] ∨ p.2 = []) (hshort : p.2.length < 2 ^ 62) (h : Row)
    (types : List SqlType) :
    (extendedExprs walk reading hopValues collected).map (engine.eval
        (joinedRow walks.outputColumns (joinColumns walk walks hopValues collected) row h)) =
      stateValues engine walk carried ⟨hopValues, collected, types⟩ counts (p.1, p.2 ++ [h]) := by
  have hleft {e : Expr} (he : e.columns ⊆ walks.outputColumns) : engine.eval
      (joinedRow walks.outputColumns (joinColumns walk walks hopValues collected) row h) e =
        engine.eval row e :=
    eval_joinedRow_left engine he fun c hc => mem_joinColumns.mpr (.inl (he hc))
  have hright {e : Expr} (hread : e.columns ⊆ node.hop.outputColumns)
      (he : e.columns ⊆ joinColumns walk walks hopValues collected) : engine.eval
      (joinedRow walks.outputColumns (joinColumns walk walks hopValues collected) row h) e =
        engine.eval h e :=
    eval_joinedRow_right engine
      (fun c hc hc' => hreading.disjoint hc' (hread hc)) he
  have hright_column {c : Column} (hc : c ∈ hopValues ++ collected) : engine.eval
      (joinedRow walks.outputColumns (joinColumns walk walks hopValues collected) row h)
        (.column c) = read h c := by
    rw [hright, eval_column]
    · intro d hd
      rw [Expr.columns, List.mem_singleton] at hd
      exact hd ▸ hhop c hc
    · intro d hd
      rw [Expr.columns, List.mem_singleton] at hd
      exact mem_joinColumns.mpr (by rcases List.mem_append.mp hc with hc | hc <;> simp [hd, hc])
  have hcarried : (toExprs reading.carried).map (engine.eval
      (joinedRow walks.outputColumns (joinColumns walk walks hopValues collected) row h)) =
        readAll p.1 carried := by
    rw [← hshows.carried, ← map_eval_toExprs engine]
    refine List.map_congr_left fun e he => hleft ?_
    obtain ⟨c, hc, rfl⟩ := List.mem_map.mp he
    exact fun d hd => (List.mem_singleton.mp hd) ▸ hreading.carried_read hc
  have hvertex : walk.hopTo.map (engine.eval
      (joinedRow walks.outputColumns (joinColumns walk walks hopValues collected) row h)) =
        reachedVertex engine walk (p.1, p.2 ++ [h]) := by
    rw [reachedVertex, Walks.reached_concat, vertexOf]
    refine List.map_congr_left fun e he => hright (hsees.hopTo_read e he) fun c hc => ?_
    exact mem_joinColumns.mpr (.inr (.inl ⟨e, he, hc⟩))
  have hvals : (toExprs hopValues).map (engine.eval
      (joinedRow walks.outputColumns (joinColumns walk walks hopValues collected) row h)) =
        hopValues.map (valueOn (p.2 ++ [h])) := by
    rw [toExprs, List.map_map]
    refine List.map_congr_left fun c hc => ?_
    rw [Function.comp_apply, hright_column (List.mem_append_left _ hc)]
    rcases hvalues with hnil | hnil
    · rw [hnil] at hc
      cases hc
    · rw [hnil]
      rfl
  have harrays : (extendedArrays walk collected reading.arrays).map (engine.eval
      (joinedRow walks.outputColumns (joinColumns walk walks hopValues collected) row h)) =
        collected.map (collectedOn walk.fromEnd (p.2 ++ [h])) :=
    eval_extendedArrays lawful hreading.arrays_types hshows.arrays
      (fun e he => hleft (hreading.arrays_read e he))
      fun c hc => hright_column (List.mem_append_right _ hc)
  have hcount : (reading.hops.map fun hops => makeBigintAdd hops (bigintLiteral 1)).toList.map
      (engine.eval
        (joinedRow walks.outputColumns (joinColumns walk walks hopValues collected) row h)) =
        if counts then [bigint (p.2 ++ [h]).length] else [] := by
    have hhops := hshows.hops
    cases hcounter : reading.hops with
    | none =>
      rw [hcounter] at hhops
      cases counts <;> simp_all
    | some e =>
      rw [hcounter] at hhops
      cases counts with
      | false => cases hhops
      | true =>
        have he : engine.eval row e = bigint p.2.length := Option.some.inj hhops
        have hsum := lawful.plus p.2.length 1 (by omega) (by omega) (by omega)
        simp only [Option.map_some, Option.toList_some, List.map_cons, List.map_nil, if_true,
          List.length_append, List.length_singleton, makeBigintAdd, Engine.eval_apply,
          hleft (hreading.hops_read e (by simp [hcounter])), he, bigintLiteral, Engine.eval]
        exact congrArg (fun value => [value]) hsum
  rw [extendedExprs, stateValues, List.map_append, List.map_append, List.map_append,
    List.map_append, hcarried, hvertex, hvals, harrays, hcount]

/-- Extending rows that show walks gives a row for each walk that goes on by one hop. -/
theorem rows_extended (lawful : LawfulEngine engine) (hsees : walk.Sees node)
    (hreading : reading.Of walks node collected)
    (hhop : ∀ c ∈ hopValues ++ collected, c ∈ node.hop.outputColumns)
    {tables : ℕ → Multiset Row} {states : States} {shown : Multiset (Row × List Row)}
    {rowFor : Row × List Row → Row} {hopRows : Multiset Row}
    (hwalks : walks.rows engine tables states = .ok (shown.map rowFor))
    (hhopRows : node.hop.rows engine tables states = .ok hopRows)
    (hshows : ∀ p ∈ shown,
      reading.Shows engine walk carried collected counts (rowFor p) p)
    (hvalues : ∀ p ∈ shown, hopValues = [] ∨ p.2 = [])
    (hshort : ∀ p ∈ shown, p.2.length < 2 ^ 62) (arrayTypes types : List SqlType) (n : ℕ) :
    (extendedNode node walk walks reading hopValues collected types n).rows engine tables states =
      .ok ((shown.bind (Walks.extend (node.sameVertex engine) (vertexOf engine walk.hopFrom)
          (vertexOf engine walk.hopTo) (vertexOf engine walk.fromKeys) hopRows)).map fun p =>
        rowOf (freshColumns n types)
          (stateValues engine walk carried ⟨hopValues, collected, arrayTypes⟩ counts p)) := by
  rw [extendedNode, Node.rows, Node.rows, hwalks, hhopRows]
  change Except.ok _ = Except.ok _
  refine congrArg Except.ok ?_
  rw [BagJoin.inner, Multiset.bind_map, Multiset.map_bind, Multiset.map_bind, Multiset.map_bind]
  refine Multiset.bind_congr fun p hp => ?_
  have hmatch (h : Row) : keysMatch engine (reading.vertex.map Expr.type)
      (reading.vertex.map (engine.eval (rowFor p))) (walk.hopFrom.map (engine.eval h)) =
      node.sameVertex engine (Walks.reached (vertexOf engine walk.hopTo)
        (vertexOf engine walk.fromKeys p.1) p.2) (vertexOf engine walk.hopFrom h) := by
    rw [hreading.vertex_types, (hshows p hp).vertex]
    rfl
  simp only [hmatch, Walks.extend, Multiset.map_map]
  refine Multiset.map_congr rfl fun h _ => ?_
  exact congrArg _ (eval_extendedExprs lawful hsees hreading hhop (hshows p hp) (hvalues p hp)
    (hshort p hp) h arrayTypes)

end extend

end Verax.LowerRepeat.Lowering
