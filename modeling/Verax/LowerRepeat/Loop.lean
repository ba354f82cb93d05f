import Verax.Lib.Outcome
import Verax.LowerRepeat.Steps

/-!
# The loop and the union of walks

The rows of the walks a Repeat may return, up to its maximum of hops.

* `WalkState.Laid.reads`: the state's columns give back the parts of a walk.
* `makeStep_rows`: the step turns the walks of `k` hops into those of one hop more, and none of the
  longest.
* `makeFixedPoint_rows`, `makeFixedPoint_fails`: the loop collects all walks within its bound, and
  when it cannot be built.
* `makeShortWalks_rows`: without a loop, the union collects them.
-/

namespace Verax.LowerRepeat.Lowering

open Verax.Lib Verax.Filters

/-! ### The layout of the state -/

/-- The columns of the state are its parts, one after the other, of the parts' types. -/
structure WalkState.Laid (state : WalkState) (walk : Walk) (carried : List Column)
    (hops : HopColumns) (counts : Bool) : Prop where
  nodup : state.columns.Nodup
  columns : state.columns =
    state.carried ++ state.vertex ++ state.hopValues ++ state.arrays ++ state.hops.toList
  carried_types : state.carried.map Column.type = carried.map Column.type
  vertex_types : state.vertex.map Column.type = walk.fromKeys.map Expr.type
  hopValues_types : state.hopValues.map Column.type = hops.values.map Column.type
  arrays_types : state.arrays.map Column.type = hops.arrayTypes
  hops_types : state.hops.toList.map Column.type = if counts then [.bigint] else []

lemma WalkState.of_append (c₁ c₂ c₃ c₄ c₅ : List Column) :
    WalkState.of (c₁ ++ c₂ ++ c₃ ++ c₄ ++ c₅) c₁.length c₂.length c₃.length c₄.length =
      ⟨c₁ ++ c₂ ++ c₃ ++ c₄ ++ c₅, c₁, c₂, c₃, c₄, c₅.head?⟩ := by
  have h₁ : (c₁ ++ c₂ ++ c₃ ++ c₄ ++ c₅).take c₁.length = c₁ := by
    rw [List.append_assoc, List.append_assoc, List.append_assoc, List.take_left]
  have h₂ : ((c₁ ++ c₂ ++ c₃ ++ c₄ ++ c₅).drop c₁.length).take c₂.length = c₂ := by
    rw [List.append_assoc, List.append_assoc, List.append_assoc, List.drop_left, List.take_left]
  have h₃ : ((c₁ ++ c₂ ++ c₃ ++ c₄ ++ c₅).drop (c₁.length + c₂.length)).take c₃.length = c₃ := by
    rw [List.append_assoc, List.append_assoc, List.drop_left' (by simp), List.take_left]
  have h₄ : ((c₁ ++ c₂ ++ c₃ ++ c₄ ++ c₅).drop (c₁.length + c₂.length + c₃.length)).take
      c₄.length = c₄ := by
    rw [List.append_assoc, List.drop_left' (by simp [Nat.add_assoc]), List.take_left]
  have h₅ : (c₁ ++ c₂ ++ c₃ ++ c₄ ++ c₅).drop
      (c₁.length + c₂.length + c₃.length + c₄.length) = c₅ :=
    List.drop_left' (by simp [Nat.add_assoc])
  rw [WalkState.of, h₁, h₂, h₃, h₄, h₅]

variable {engine : Engine} {node : Repeat} {walk : Walk} {hops : HopColumns}
  {carried columns : List Column} {counts : Bool} {state : WalkState}

lemma WalkState.of_laid (hreads : hops.Reads node) (hnodup : columns.Nodup)
    (htypes : columns.map Column.type = stateTypes walk carried hops counts) :
    (WalkState.of columns carried.length walk.fromKeys.length hops.values.length
      hops.collected.length).Laid walk carried hops counts := by
  rw [stateTypes] at htypes
  obtain ⟨c₁₄, c₅, rfl, htypes, h₅⟩ := List.map_eq_append_iff.mp htypes
  obtain ⟨c₁₃, c₄, rfl, htypes, h₄⟩ := List.map_eq_append_iff.mp htypes
  obtain ⟨c₁₂, c₃, rfl, htypes, h₃⟩ := List.map_eq_append_iff.mp htypes
  obtain ⟨c₁, c₂, rfl, h₁, h₂⟩ := List.map_eq_append_iff.mp htypes
  have l₁ : carried.length = c₁.length := by simpa using congrArg List.length h₁.symm
  have l₂ : walk.fromKeys.length = c₂.length := by simpa using congrArg List.length h₂.symm
  have l₃ : hops.values.length = c₃.length := by simpa using congrArg List.length h₃.symm
  have l₄ : hops.collected.length = c₄.length := by
    simpa [hreads.arrayTypes] using congrArg List.length h₄.symm
  have l₅ : c₅ = c₅.head?.toList := by
    cases counts with
    | false => rw [List.map_eq_nil_iff.mp h₅]; rfl
    | true =>
      obtain ⟨c, hc, -⟩ := List.map_eq_singleton_iff.mp h₅
      rw [hc]
      rfl
  rw [l₁, l₂, l₃, l₄, WalkState.of_append]
  exact ⟨hnodup, congrArg _ l₅, h₁, h₂, h₃, h₄, l₅ ▸ h₅⟩

/-- The state's columns give back the parts of a walk. -/
structure WalkState.Gives (state : WalkState) (engine : Engine) (walk : Walk)
    (carried : List Column) (hops : HopColumns) (counts : Bool) (row : Row) (p : Row × List Row) :
    Prop where
  carried : readAll row state.carried = readAll p.1 carried
  vertex : readAll row state.vertex = reachedVertex engine walk p
  hopValues : readAll row state.hopValues = hops.values.map (valueOn p.2)
  arrays : readAll row state.arrays = hops.collected.map (collectedOn walk.fromEnd p.2)
  hops : readAll row state.hops.toList = if counts then [bigint p.2.length] else []

variable (engine) in
lemma WalkState.Laid.fits (hlaid : state.Laid walk carried hops counts) (hsees : walk.Sees node)
    (hreads : hops.Reads node) (p : Row × List Row) :
    Fits state.columns (stateValues engine walk carried hops counts p) := by
  refine fits_stateValues hsees hreads ?_ p
  rw [hlaid.columns, List.map_append, List.map_append, List.map_append, List.map_append,
    hlaid.carried_types, hlaid.vertex_types, hlaid.hopValues_types, hlaid.arrays_types,
    hlaid.hops_types, stateTypes]

variable (engine) in
/-- The row written for a walk gives back its parts. -/
lemma WalkState.Laid.reads (hlaid : state.Laid walk carried hops counts) (hsees : walk.Sees node)
    (hreads : hops.Reads node) (p : Row × List Row) :
    state.Gives engine walk carried hops counts
      (rowOf state.columns (stateValues engine walk carried hops counts p)) p := by
  have hrow := readAll_rowOf hlaid.nodup (hlaid.fits engine hsees hreads p)
  generalize rowOf state.columns (stateValues engine walk carried hops counts p) = row at hrow
  rw [hlaid.columns, readAll_append, readAll_append, readAll_append, readAll_append,
    stateValues] at hrow
  have hvertex : (reachedVertex engine walk p).length = walk.fromKeys.length := by
    simpa using (fits_reachedVertex engine hsees p).length_eq.symm
  have l₁ : state.carried.length = carried.length := by
    simpa using congrArg List.length hlaid.carried_types
  have l₂ : state.vertex.length = walk.fromKeys.length := by
    simpa using congrArg List.length hlaid.vertex_types
  have l₃ : state.hopValues.length = hops.values.length := by
    simpa using congrArg List.length hlaid.hopValues_types
  have l₄ : state.arrays.length = hops.collected.length := by
    simpa [hreads.arrayTypes] using congrArg List.length hlaid.arrays_types
  obtain ⟨hrow, h₅⟩ := List.append_inj hrow (by simp [l₁, l₂, l₃, l₄, hvertex])
  obtain ⟨hrow, h₄⟩ := List.append_inj hrow (by simp [l₁, l₂, l₃, hvertex])
  obtain ⟨hrow, h₃⟩ := List.append_inj hrow (by simp [l₁, l₂, hvertex])
  obtain ⟨h₁, h₂⟩ := List.append_inj hrow (by simp [l₁])
  exact ⟨h₁, h₂, h₃, h₄, h₅⟩

/-! ### The step -/

/-- The walks of a number of hops from the side the walk leaves from, hop by hop. -/
def pathsFrom (engine : Engine) (node : Repeat) (walk : Walk) (sourceRows hopRows : Multiset Row)
    (n : ℕ) : Multiset (Row × List Row) :=
  Walks.paths (node.sameVertex engine) (vertexOf engine walk.hopFrom)
    (vertexOf engine walk.hopTo) sourceRows (vertexOf engine walk.fromKeys) hopRows n

/-- The rows that columns have for walks. -/
def stateRows (engine : Engine) (walk : Walk) (carried : List Column) (hops : HopColumns)
    (counts : Bool) (columns : List Column) (shown : Multiset (Row × List Row)) : Multiset Row :=
  shown.map fun p => rowOf columns (stateValues engine walk carried hops counts p)

/-- The parts of a state, as the step reads them. -/
def WalkState.reading (state : WalkState) : Reading where
  vertex := toExprs state.vertex
  carried := state.carried
  arrays := toExprs state.arrays
  hops := state.hops.map .column

lemma WalkState.Laid.mem_columns (hlaid : state.Laid walk carried hops counts) {c : Column} :
    c ∈ state.columns ↔ c ∈ state.carried ∨ c ∈ state.vertex ∨ c ∈ state.hopValues ∨
      c ∈ state.arrays ∨ state.hops = some c := by
  rw [hlaid.columns]
  simp [Option.mem_toList]

lemma WalkState.Laid.reading_of (hlaid : state.Laid walk carried hops counts)
    (hsees : walk.Sees node) (hreads : hops.Reads node) {walks : Node}
    (hwalks : state.columns ⊆ walks.outputColumns)
    (hdisjoint : walks.outputColumns.Disjoint node.hop.outputColumns) :
    state.reading.Of walks node hops.collected where
  disjoint := hdisjoint
  carried_read c hc := hwalks (hlaid.mem_columns.mpr (.inl hc))
  arrays_read e he c hc := by
    obtain ⟨d, hd, rfl⟩ := List.mem_map.mp he
    exact hwalks (hlaid.mem_columns.mpr (by simp [List.mem_singleton.mp hc, hd]))
  hops_read e he c hc := by
    obtain ⟨d, hd, rfl⟩ := Option.map_eq_some_iff.mp he
    exact hwalks (hlaid.mem_columns.mpr (by simp [List.mem_singleton.mp hc, hd]))
  vertex_types := by
    rw [WalkState.reading, map_type_toExprs, hlaid.vertex_types, hsees.from_types]
  arrays_types := by
    have htypes := hlaid.arrays_types
    rw [hreads.arrayTypes, ← map_type_toExprs] at htypes
    rw [← List.forall₂_eq_eq_eq, List.forall₂_map_left_iff, List.forall₂_map_right_iff] at htypes
    exact htypes.flip

lemma WalkState.Gives.shows {row : Row} {p : Row × List Row}
    (h : state.Gives engine walk carried hops counts row p) :
    state.reading.Shows engine walk carried hops.collected counts row p where
  vertex := (map_eval_toExprs ..).trans h.vertex
  carried := h.carried
  arrays := (map_eval_toExprs ..).trans h.arrays
  hops := by
    have hhops := h.hops
    rw [WalkState.reading, Option.map_map]
    cases hcount : state.hops with
    | none =>
      rw [hcount] at hhops
      cases counts
      · rfl
      · cases hhops
    | some c =>
      rw [hcount] at hhops
      cases counts
      · cases hhops
      · exact congrArg some ((eval_column ..).trans (List.cons.inj hhops).1)

variable (engine) in
/-- A comparison with a number of hops. -/
lemma eval_compareHops {name : FunctionName} (hname : name = .lt ∨ name = .gte) {row : Row}
    {c : Column} {a b : ℕ} (hread : read row c = bigint a) (htype : c.type = .bigint)
    (ha : a < 2 ^ 62) (hb : b < 2 ^ 62) :
    (engine.eval row (.apply name [.column c, bigintLiteral b] .boolean)).truth =
      some (relation name a b) := by
  rw [Engine.eval_apply, Value.truth_conform]
  have hvalues : [Expr.column c, bigintLiteral b].map (engine.eval row) = [bigint a, bigint b] := by
    rw [List.map_cons, List.map_cons, List.map_nil, eval_column, hread, bigintLiteral, Engine.eval]
    rfl
  have ha' : -2 ^ 63 ≤ (a : ℤ) ∧ (a : ℤ) ≤ 2 ^ 63 - 1 := by omega
  have hb' : -2 ^ 63 ≤ (b : ℤ) ∧ (b : ℤ) ≤ 2 ^ 63 - 1 := by omega
  rw [hvalues, bigint, bigint, dif_pos ha', dif_pos hb']
  rcases hname with rfl | rfl <;>
    simp [Engine.apply, Engine.compareValues, Engine.order, htype, Expr.type]

lemma WalkState.Laid.hops_eq (hlaid : state.Laid walk carried hops true) :
    ∃ c ∈ state.columns, state.hops = some c ∧ c.type = .bigint := by
  have htypes := hlaid.hops_types
  cases hcount : state.hops with
  | none =>
    rw [hcount] at htypes
    cases htypes
  | some c =>
    rw [hcount] at htypes
    exact ⟨c, hlaid.mem_columns.mpr (by simp [hcount]), rfl, (List.cons.inj htypes).1⟩

/-- The state as the step reads it. -/
def readState (walk : Walk) (carried : List Column) (hops : HopColumns) (columns : List Column)
    (n : ℕ) : WalkState :=
  WalkState.of (freshColumns n (columns.map Column.type)) carried.length walk.fromKeys.length
    hops.values.length hops.collected.length

/-- The walks the step extends: the latest ones with fewer than `maxHops` hops. -/
def extensibleNode (node : Repeat) (name : ℕ) (state read : WalkState) (count : Column) : Node :=
  .filter (.workingTable name state.columns read.columns)
    [makeLessThan (.column count) (bigintLiteral node.maxHops)]

/-- The step. -/
def stepNode (node : Repeat) (walk : Walk) (name : ℕ) (state read : WalkState) (count : Column)
    (hops : HopColumns) (types : List SqlType) (n : ℕ) : Node :=
  extendedNode node walk (extensibleNode node name state read count) read.reading [] hops.collected
    types n

lemma readState_laid (hreads : hops.Reads node)
    (htypes : state.columns.map Column.type = stateTypes walk carried hops counts) (n : ℕ) :
    (readState walk carried hops state.columns n).Laid walk carried hops counts :=
  WalkState.of_laid hreads (nodup_freshColumns ..) (by rw [map_type_freshColumns, htypes])

lemma readState_of (hsees : walk.Sees node) (hreads : hops.Reads node)
    (htypes : state.columns.map Column.type = stateTypes walk carried hops counts) {n : ℕ}
    (hbelow : Below n node.hop.outputColumns) (name : ℕ) (count : Column) :
    (readState walk carried hops state.columns n).reading.Of
      (extensibleNode node name state (readState walk carried hops state.columns n) count) node
      hops.collected :=
  (readState_laid hreads htypes n).reading_of hsees hreads (fun _ hc => hc)
    (hbelow.disjoint _).symm

/-- As many columns as the walks have. -/
lemma length_extendedExprs (hsees : walk.Sees node) (hreads : hops.Reads node) {reading : Reading}
    {hopValues : List Column} (hcarried : reading.carried.length = carried.length)
    (harrays : reading.arrays.length = hops.collected.length)
    (hhops : reading.hops.isSome = counts) (hvalues : hopValues.length = hops.values.length) :
    (extendedExprs walk reading hopValues hops.collected).length =
      (stateTypes walk carried hops counts).length := by
  have hkeys : walk.hopTo.length = walk.fromKeys.length := by
    simpa using congrArg List.length (hsees.hopTo_types.trans hsees.from_types.symm)
  have hcount : (reading.hops.map fun hops => makeBigintAdd hops (bigintLiteral 1)).toList.length =
      (if counts then [SqlType.bigint] else []).length := by
    cases hr : reading.hops <;> cases counts <;> simp_all
  simp only [extendedExprs, stateTypes, List.length_append, hcount, hreads.arrayTypes,
    extendedArrays, List.length_zipWith, List.length_map, toExprs, hcarried, harrays, hkeys,
    hvalues, Nat.min_self]

lemma WalkState.Laid.lengths (hlaid : state.Laid walk carried hops counts)
    (hreads : hops.Reads node) : state.carried.length = carried.length ∧
      state.vertex.length = walk.fromKeys.length ∧
      state.hopValues.length = hops.values.length ∧
      state.arrays.length = hops.collected.length := by
  refine ⟨?_, ?_, ?_, ?_⟩
  · simpa using congrArg List.length hlaid.carried_types
  · simpa using congrArg List.length hlaid.vertex_types
  · simpa using congrArg List.length hlaid.hopValues_types
  · simpa [hreads.arrayTypes] using congrArg List.length hlaid.arrays_types

lemma makeStep_eq (hsees : walk.Sees node) (hreads : hops.Reads node)
    (hlaid : state.Laid walk carried hops true)
    (htypes : state.columns.map Column.type = stateTypes walk carried hops true)
    (hcolumns : columns.map Column.type = stateTypes walk carried hops true)
    (hvalues : hops.values = []) {n : ℕ} (hbelow : Below n node.hop.outputColumns) (name : ℕ)
    {count : Column} (hcount : (readState walk carried hops state.columns n).hops = some count) :
    makeStep node walk name state hops columns n =
      .ok (stepNode node walk name state (readState walk carried hops state.columns n) count hops
          (columns.map Column.type) (n + state.columns.length),
        n + state.columns.length + columns.length) := by
  obtain ⟨l₁, l₂, l₃, l₄⟩ := hlaid.lengths hreads
  have hread : WalkState.of (freshColumns n (state.columns.map Column.type)) state.carried.length
      state.vertex.length state.hopValues.length state.arrays.length =
        readState walk carried hops state.columns n := by
    rw [readState, l₁, l₂, l₃, l₄]
  have hfilter : Builder.filter (.workingTable name state.columns
        (readState walk carried hops state.columns n).columns)
        [makeLessThan (.column count) (bigintLiteral node.maxHops)] =
      .ok (extensibleNode node name state (readState walk carried hops state.columns n) count) :=
    if_neg (by simp)
  obtain ⟨l₁', -, -, l₄'⟩ := (readState_laid hreads htypes n).lengths hreads
  have hlength : columns.length =
      (extendedExprs walk (readState walk carried hops state.columns n).reading [] hops.collected
        ).length := by
    have hsome : (readState walk carried hops state.columns n).reading.hops.isSome = true := by
      simp [WalkState.reading, hcount]
    rw [length_extendedExprs hsees hreads l₁' (by simpa [WalkState.reading, toExprs]) hsome
      (by simp [hvalues]), ← hcolumns, List.length_map]
  have hhop : ∀ c ∈ [] ++ hops.collected, c ∈ node.hop.outputColumns :=
    fun c hc => hreads.mem_hop c (List.mem_append_right _ (by simpa using hc))
  have hextend := extendByOneHop_eq hsees (readState_of hsees hreads htypes hbelow name count) hhop
    hlength (n + state.columns.length)
  rw [makeStep]
  refine (bind_ok (createColumns_eq (state.columns.map Column.type) n)).trans ?_
  rw [List.length_map]
  rw [hread, hcount]
  refine (bind_ok (check_ok hfilter _)).trans ?_
  have hreading : (readState walk carried hops state.columns n).reading.hops =
      some (.column count) := by
    rw [WalkState.reading, hcount]
    rfl
  rw [hreading] at hextend
  exact hextend

lemma readAll_stateRow (hsees : walk.Sees node) (hreads : hops.Reads node)
    (hnodup : columns.Nodup) (hcolumns : columns.map Column.type = stateTypes walk carried hops counts)
    (p : Row × List Row) :
    readAll (rowOf columns (stateValues engine walk carried hops counts p)) columns =
      stateValues engine walk carried hops counts p :=
  readAll_rowOf hnodup (fits_stateValues hsees hreads hcolumns p)

/-- Rows of walks, renamed, are rows of the walks. -/
lemma rename_stateRows (hsees : walk.Sees node) (hreads : hops.Reads node) (hnodup : columns.Nodup)
    (hcolumns : columns.map Column.type = stateTypes walk carried hops counts)
    (outputColumns : List Column) (shown : Multiset (Row × List Row)) :
    (stateRows engine walk carried hops counts columns shown).map
        (fun row => rowOf outputColumns (readAll row columns)) =
      stateRows engine walk carried hops counts outputColumns shown := by
  rw [stateRows, stateRows, Multiset.map_map]
  refine Multiset.map_congr rfl fun p _ => ?_
  rw [Function.comp_apply, readAll_stateRow hsees hreads hnodup hcolumns]

lemma length_of_mem_pathsFrom {sourceRows hopRows : Multiset Row} {k : ℕ} {p : Row × List Row}
    (hp : p ∈ pathsFrom engine node walk sourceRows hopRows k) : p.2.length = k :=
  Walks.length_of_mem_paths hp

/-- The step turns the walks of `k` hops into those of one hop more, and none of the longest. -/
theorem rows_stepNode (lawful : LawfulEngine engine) (hsees : walk.Sees node)
    (hreads : hops.Reads node) (hlaid : state.Laid walk carried hops true)
    (htypes : state.columns.map Column.type = stateTypes walk carried hops true)
    (hvalues : hops.values = []) {n : ℕ} (hbelow : Below n node.hop.outputColumns) (name : ℕ)
    {count : Column} (hcount : (readState walk carried hops state.columns n).hops = some count)
    {tables : ℕ → Multiset Row} {states : States} {sourceRows hopRows : Multiset Row}
    (hhopRows : node.hop.rows engine tables states = .ok hopRows) {k : ℕ} (hk : k ≤ node.maxHops)
    (hstate : states name = some (stateRows engine walk carried hops true state.columns
      (pathsFrom engine node walk sourceRows hopRows k))) (types : List SqlType) (m : ℕ) :
    (stepNode node walk name state (readState walk carried hops state.columns n) count hops types
        m).rows engine tables states =
      .ok (stateRows engine walk carried hops true (freshColumns m types)
        (if k < node.maxHops then pathsFrom engine node walk sourceRows hopRows (k + 1) else 0)) := by
  have hread : (readState walk carried hops state.columns n).Laid walk carried hops true :=
    readState_laid hreads htypes n
  have hmax := node.maxHops_lt
  obtain ⟨count', -, hcount', hcountType⟩ := hread.hops_eq
  obtain rfl : count' = count := Option.some.inj (hcount'.symm.trans hcount)
  have hgives (p : Row × List Row) := hread.reads engine hsees hreads p
  have hlength {p : Row × List Row} (hp : p ∈ pathsFrom engine node walk sourceRows hopRows k) :=
    length_of_mem_pathsFrom hp
  have hrows : (extensibleNode node name state (readState walk carried hops state.columns n)
        count').rows engine tables states =
      .ok ((if k < node.maxHops then pathsFrom engine node walk sourceRows hopRows k else 0).map
        fun p => rowOf (readState walk carried hops state.columns n).columns
          (stateValues engine walk carried hops true p)) := by
    have hpass (p : Row × List Row) (hp : p ∈ pathsFrom engine node walk sourceRows hopRows k) :
        (∀ e ∈ [makeLessThan (.column count') (bigintLiteral node.maxHops)],
          (engine.eval (rowOf (readState walk carried hops state.columns n).columns
            (stateValues engine walk carried hops true p)) e).truth = some true) ↔
          k < node.maxHops := by
      have hcounted : readAll (rowOf (readState walk carried hops state.columns n).columns
          (stateValues engine walk carried hops true p)) (some count').toList =
            [bigint p.2.length] := hcount ▸ (hgives p).hops
      have hcompare := eval_compareHops engine (.inl rfl)
        (List.cons.inj hcounted).1 hcountType (a := p.2.length) (b := node.maxHops)
        (by have := hlength hp; omega) (by omega)
      rw [List.forall_mem_singleton, makeLessThan, hcompare, relation, hlength hp]
      simp
    rw [extensibleNode, Node.rows, Node.rows, hstate]
    change Except.ok _ = Except.ok _
    refine congrArg Except.ok ?_
    rw [rename_stateRows hsees hreads hlaid.nodup htypes, stateRows, Multiset.filter_map]
    split
    · rename_i hlt
      exact congrArg _ (Multiset.filter_eq_self.mpr fun p hp => (hpass p hp).mpr hlt)
    · rename_i hle
      exact congrArg _ (Multiset.filter_eq_nil.mpr fun p hp h => hle ((hpass p hp).mp h))
  have hshown {p : Row × List Row} (hp : p ∈ (if k < node.maxHops then
      pathsFrom engine node walk sourceRows hopRows k else 0)) :
      p ∈ pathsFrom engine node walk sourceRows hopRows k := by
    split at hp
    · exact hp
    · exact absurd hp (Multiset.notMem_zero p)
  have hhop : ∀ c ∈ [] ++ hops.collected, c ∈ node.hop.outputColumns :=
    fun c hc => hreads.mem_hop c (List.mem_append_right _ (by simpa using hc))
  have hextended := rows_extended lawful hsees (readState_of hsees hreads htypes hbelow name count')
    hhop hrows hhopRows (fun p _ => (hgives p).shows) (fun _ _ => .inl rfl)
    (fun p hp => by have := hlength (hshown hp); omega) hops.arrayTypes types m
  have hsplit : (⟨[], hops.collected, hops.arrayTypes⟩ : HopColumns) = hops := by
    rw [← hvalues]
  rw [hsplit] at hextended
  rw [stepNode, hextended, stateRows]
  refine congrArg (fun shown => Except.ok (Multiset.map _ shown)) ?_
  split
  · rfl
  · exact Multiset.zero_bind _

/-! ### The loop -/

/-- What the constructor of a FixedPoint accepts. -/
lemma fixedPoint_eq_ok_iff {anchor step x : Node} {name : ℕ} {outputColumns : List Column}
    {sourceColumns : List Column} {maxIterations : ℤ} :
    Builder.fixedPoint anchor step name outputColumns sourceColumns maxIterations = .ok x ↔
      (outputColumns ≠ [] ∧ 1 ≤ maxIterations ∧ anchor.requiredStates = [] ∧
        step.requiredStates.lookup name = some outputColumns ∧ step.requiredStates.length = 1 ∧
        step.countStateReads name = 1) ∧
      x = .fixedPoint anchor step name outputColumns sourceColumns maxIterations true := by
  cases hlookup : step.requiredStates.lookup name with
  | none => simp [Builder.fixedPoint, hlookup, Outcome.ite_error_eq_ok]
  | some columns =>
    simp only [Builder.fixedPoint, hlookup, Outcome.ite_error_eq_ok, Option.some.injEq,
      Except.ok.injEq, not_not, not_lt, and_assoc, ne_eq, eq_comm (b := x)]

/-- The counts the loop's bound is made of fit their type, and neither the side the walk leaves from
nor the hop reads a recursive state. -/
def LoopFits (node : Repeat) (walk : Walk) : Prop :=
  node.maxHops + 1 < 2 ^ 31 ∧ walk.source.requiredStates = [] ∧ node.hop.requiredStates = []

/-- One more than the largest `int32_t` is the smallest. -/
lemma int32Add_one {n : ℕ} (h : n < 2 ^ 31) :
    int32Add n 1 = if n + 1 < 2 ^ 31 then (n : ℤ) + 1 else -2 ^ 31 := by
  unfold int32Add
  split
  · rw [Int.bmod_eq_of_le] <;> omega
  · have : (n : ℤ) + 1 = 2 ^ 31 := by omega
    rw [this]
    decide

lemma requiredStates_stepNode (name : ℕ) (state read : WalkState) (count : Column)
    (types : List SqlType) (m : ℕ) :
    (stepNode node walk name state read count hops types m).requiredStates =
      node.hop.requiredStates.insert (name, state.columns) := by
  simp [stepNode, extendedNode, extensibleNode, Node.requiredStates, List.union_def]

lemma countStateReads_stepNode (name : ℕ) (state read : WalkState) (count : Column)
    (types : List SqlType) (m : ℕ) :
    (stepNode node walk name state read count hops types m).countStateReads name =
      1 + node.hop.countStateReads name := by
  simp [stepNode, extendedNode, extensibleNode, Node.countStateReads]

/-- The loop is built exactly if its bound fits and its inputs read no recursive state. -/
lemma fixedPoint_stepNode_iff {anchor x : Node} {name : ℕ} {state read : WalkState}
    {count : Column} {types : List SqlType} {m : ℕ} {sourceColumns : List Column}
    (hanchor : anchor.requiredStates = walk.source.requiredStates) (hcolumns : state.columns ≠ []) :
    Builder.fixedPoint anchor (stepNode node walk name state read count hops types m) name
        state.columns sourceColumns (int32Add node.maxHops 1) = .ok x ↔
      LoopFits node walk ∧
        x = .fixedPoint anchor (stepNode node walk name state read count hops types m) name
          state.columns sourceColumns (node.maxHops + 1) true := by
  rw [fixedPoint_eq_ok_iff, requiredStates_stepNode, countStateReads_stepNode, hanchor, LoopFits,
    int32Add_one node.maxHops_lt]
  have hpos (hhop : node.hop.requiredStates.insert (name, state.columns) =
      [(name, state.columns)]) (hcount : node.hop.countStateReads name = 0) :
      node.hop.requiredStates = [] := by
    refine List.eq_nil_iff_forall_not_mem.mpr fun s hs => ?_
    have hmem : s ∈ node.hop.requiredStates.insert (name, state.columns) :=
      List.mem_insert_of_mem hs
    rw [hhop, List.mem_singleton] at hmem
    have := Node.countStateReads_pos (hmem ▸ hs)
    omega
  have hsingle {states : List (ℕ × List Column)}
      (hlookup : states.lookup name = some state.columns) (hlength : states.length = 1) :
      states = [(name, state.columns)] := by
    obtain ⟨⟨name', columns⟩, rfl⟩ := List.length_eq_one_iff.mp hlength
    rw [List.lookup_cons] at hlookup
    split at hlookup
    · rename_i heq
      rw [beq_iff_eq.mp heq, Option.some.inj hlookup]
    · cases hlookup
  constructor
  · rintro ⟨⟨-, hmax, hsource, hlookup, hlength, hcount⟩, hx⟩
    have hfits : node.maxHops + 1 < 2 ^ 31 := by
      by_contra h
      rw [if_neg h] at hmax
      omega
    rw [if_pos hfits] at hx
    exact ⟨⟨hfits, hsource, hpos (hsingle hlookup hlength) (by omega)⟩, hx⟩
  · rintro ⟨⟨hmax, hsource, hhop⟩, hx⟩
    have hcount : node.hop.countStateReads name = 0 :=
      Node.countStateReads_eq_zero (by simp [hhop])
    rw [if_pos hmax]
    refine ⟨⟨hcolumns, by omega, hsource, ?_, ?_, by omega⟩, hx⟩ <;> simp [hhop]

/-- Building the loop is making its step and passing the checks of a FixedPoint. -/
lemma makeFixedPoint_eq (hsees : walk.Sees node) (hreads : hops.Reads node)
    (hlaid : state.Laid walk carried hops true)
    (htypes : state.columns.map Column.type = stateTypes walk carried hops true)
    (hcolumns : columns.map Column.type = stateTypes walk carried hops true)
    (hvalues : hops.values = []) {n : ℕ} (hbelow : Below n node.hop.outputColumns)
    {count : Column} (hcount : (readState walk carried hops state.columns (n + 1)).hops = some count)
    (anchor : Node) :
    makeFixedPoint node walk anchor columns state hops n =
      (Builder.fixedPoint anchor
        (stepNode node walk n state (readState walk carried hops state.columns (n + 1)) count hops
          (columns.map Column.type) (n + 1 + state.columns.length))
        n state.columns columns (int32Add node.maxHops 1)).map
          (·, n + 1 + state.columns.length + columns.length) := by
  rw [makeFixedPoint]
  refine (bind_ok (show newName n = .ok (n, n + 1) from rfl)).trans ?_
  exact bind_ok (makeStep_eq hsees hreads hlaid htypes hcolumns hvalues
    (hbelow.mono (Nat.le_succ n)) n hcount)

lemma stateRows_sum (shown : ℕ → Multiset (Row × List Row)) (s : Finset ℕ) :
    ∑ k ∈ s, stateRows engine walk carried hops counts columns (shown k) =
      stateRows engine walk carried hops counts columns (∑ k ∈ s, shown k) :=
  (map_sum (Multiset.mapAddMonoidHom fun p =>
    rowOf columns (stateValues engine walk carried hops counts p)) shown s).symm

/-- The loop collects the walks of every number of hops up to the maximum, within its bound. -/
theorem rows_fixedPoint (lawful : LawfulEngine engine) (hsees : walk.Sees node)
    (hreads : hops.Reads node) (hfits : LoopFits node walk)
    (hlaid : state.Laid walk carried hops true)
    (htypes : state.columns.map Column.type = stateTypes walk carried hops true)
    (hvalues : hops.values = []) {n m a : ℕ} (hbelow : Below n node.hop.outputColumns) (name : ℕ)
    {count : Column} (hcount : (readState walk carried hops state.columns n).hops = some count)
    (hnodup : (anchorColumns walk carried hops true a).Nodup)
    {tables : ℕ → Multiset Row} {states : States} {sourceRows hopRows : Multiset Row}
    (hsourceRows : walk.source.rows engine tables states = .ok sourceRows)
    (hhopRows : node.hop.rows engine tables states = .ok hopRows) :
    (Node.fixedPoint (anchorNode walk carried hops true a)
        (stepNode node walk name state (readState walk carried hops state.columns n) count hops
          ((anchorColumns walk carried hops true a).map Column.type) m)
        name state.columns (anchorColumns walk carried hops true a) (node.maxHops + 1) true).rows
          engine tables states =
      .ok (stateRows engine walk carried hops true state.columns
        (∑ k ∈ Finset.range (node.maxHops + 1),
          pathsFrom engine node walk sourceRows hopRows k)) := by
  let deltas (k : ℕ) : Multiset Row := stateRows engine walk carried hops true state.columns
    (if k ≤ node.maxHops then pathsFrom engine node walk sourceRows hopRows k else 0)
  have hanchor : (anchorNode walk carried hops true a).rows engine tables (fun _ => none) =
      .ok (stateRows engine walk carried hops true (anchorColumns walk carried hops true a)
        (pathsFrom engine node walk sourceRows hopRows 0)) := by
    rw [rows_anchor hreads ((Node.rows_closed engine tables hfits.2.1 _ states).trans hsourceRows)]
    rw [stateRows, pathsFrom, Walks.paths, Multiset.map_map]
    rfl
  have hanchorTypes : (anchorColumns walk carried hops true a).map Column.type =
      stateTypes walk carried hops true := map_type_anchorColumns a
  have hfirst : (stateRows engine walk carried hops true (anchorColumns walk carried hops true a)
      (pathsFrom engine node walk sourceRows hopRows 0)).map
        (fun row => rowOf state.columns (readAll row (anchorColumns walk carried hops true a))) =
      deltas 0 := by
    rw [rename_stateRows hsees hreads hnodup hanchorTypes]
    exact congrArg _ (if_pos (Nat.zero_le _)).symm
  let loopStep (delta : Multiset Row) : Except Failure (Multiset Row) := do
    let rows ← (stepNode node walk name state (readState walk carried hops state.columns n) count
      hops ((anchorColumns walk carried hops true a).map Column.type) m).rows engine tables
        (states.bind name delta)
    return rows.map fun row => rowOf state.columns (readAll row
      (freshColumns m ((anchorColumns walk carried hops true a).map Column.type)))
  have hstep : ∀ k ≤ node.maxHops, loopStep (deltas k) = .ok (deltas (k + 1)) := by
    intro k hk
    have hstate : states.bind name (deltas k) name = some (stateRows engine walk carried hops true
        state.columns (pathsFrom engine node walk sourceRows hopRows k)) := by
      rw [States.bind, if_pos rfl]
      exact congrArg (fun shown => some (stateRows engine walk carried hops true _ shown)) (if_pos hk)
    change (Node.rows engine tables _ _ >>= _) = _
    rw [rows_stepNode lawful hsees hreads hlaid htypes hvalues hbelow name hcount
      ((Node.rows_closed engine tables hfits.2.2 _ states).trans hhopRows) hk hstate]
    change Except.ok _ = Except.ok _
    rw [rename_stateRows hsees hreads (nodup_freshColumns ..)
      ((map_type_freshColumns ..).trans hanchorTypes)]
    rfl
  have hzero : ∀ k, deltas k = 0 → deltas (k + 1) = 0 := by
    intro k hk
    have hnone := Multiset.map_eq_zero.mp hk
    refine Multiset.map_eq_zero.mpr ?_
    split
    · rename_i hle
      rw [if_pos (Nat.le_of_succ_le hle)] at hnone
      rw [pathsFrom, Walks.paths]
      exact (congrArg (fun shown => Multiset.bind shown _) hnone).trans (Multiset.zero_bind _)
    · rfl
  have hlast : deltas (node.maxHops + 1) = 0 :=
    Multiset.map_eq_zero.mpr (if_neg (Nat.not_succ_le_self _))
  rw [Node.rows, hanchor]
  change Accumulation.accumulate loopStep _ (node.maxHops + 1) _ _ = _
  rw [hfirst, Accumulation.accumulate_eq hstep hzero hlast (Nat.lt_succ_self node.maxHops),
    stateRows_sum]
  refine congrArg (fun shown => Except.ok (stateRows engine walk carried hops true _ shown)) ?_
  exact Finset.sum_congr rfl fun k hk => if_pos (Nat.le_of_lt_succ (Finset.mem_range.mp hk))

/-! ### Without a loop -/

/-- The side the walk leaves from, read as its walks of zero hops. -/
def sourceReading (walk : Walk) (carried : List Column) (hops : HopColumns) (counts : Bool) :
    Reading where
  vertex := walk.fromKeys
  carried := carried
  arrays := emptyArrays hops
  hops := if counts then some (bigintLiteral 0) else none

lemma sourceReading_of (hsees : walk.Sees node) (hreads : hops.Reads node)
    (hcarried : carried ⊆ walk.source.outputColumns) :
    (sourceReading walk carried hops counts).Of walk.source node hops.collected where
  disjoint := hsees.source_hop
  carried_read := hcarried
  arrays_read e he c hc := by
    obtain ⟨type, -, rfl⟩ := List.mem_map.mp he
    cases hc
  hops_read e he c hc := by
    cases counts
    · cases he
    · obtain rfl := Option.some.inj he
      cases hc
  vertex_types := hsees.from_types
  arrays_types := by
    rw [sourceReading, emptyArrays, hreads.arrayTypes, List.map_map, List.forall₂_map_right_iff]
    exact List.forall₂_same.mpr fun c _ => rfl

lemma sourceReading_shows (hreads : hops.Reads node) (row : Row) :
    (sourceReading walk carried hops counts).Shows engine walk carried hops.collected counts row
      (row, []) where
  vertex := rfl
  carried := rfl
  arrays := eval_emptyArrays hreads row
  hops := by
    cases counts
    · rfl
    · exact congrArg some (eval_bigintLiteral row 0)

/-- The walks of one hop. -/
def hoppedNode (node : Repeat) (walk : Walk) (carried : List Column) (hops : HopColumns)
    (counts : Bool) (types : List SqlType) (n : ℕ) : Node :=
  extendedNode node walk walk.source (sourceReading walk carried hops counts) hops.values
    hops.collected types n

lemma makeShortWalks_zero (h : node.maxHops ≠ 1) (anchor : Node) (n : ℕ) :
    makeShortWalks node walk anchor columns carried hops counts n = .ok ((anchor, columns), n) := by
  rw [makeShortWalks, if_neg h]
  rfl

lemma makeShortWalks_one (hsees : walk.Sees node) (hreads : hops.Reads node)
    (hcarried : carried ⊆ walk.source.outputColumns) (h : node.maxHops = 1)
    (hcolumns : columns.map Column.type = stateTypes walk carried hops counts) (anchor : Node)
    (n : ℕ) :
    makeShortWalks node walk anchor columns carried hops counts n =
      .ok ((.unionAll anchor (hoppedNode node walk carried hops counts (columns.map Column.type) n)
            columns (freshColumns n (columns.map Column.type))
            (freshColumns (n + columns.length) (columns.map Column.type)),
          freshColumns (n + columns.length) (columns.map Column.type)),
        n + columns.length + columns.length) := by
  have hlength : columns.length = (extendedExprs walk (sourceReading walk carried hops counts)
      hops.values hops.collected).length := by
    have harrays : (sourceReading walk carried hops counts).arrays.length =
        hops.collected.length := by
      simp [sourceReading, emptyArrays, hreads.arrayTypes]
    have hsome : (sourceReading walk carried hops counts).hops.isSome = counts := by
      cases counts <;> rfl
    have hsame : (sourceReading walk carried hops counts).carried.length = carried.length := rfl
    rw [length_extendedExprs hsees hreads hsame harrays hsome rfl, ← hcolumns, List.length_map]
  rw [makeShortWalks, if_pos h]
  refine (bind_ok (extendByOneHop_eq hsees (sourceReading_of hsees hreads hcarried)
    hreads.mem_hop hlength n)).trans ?_
  refine (bind_ok (createColumns_eq (columns.map Column.type) _)).trans ?_
  rw [List.length_map]
  rfl

/-- Without a loop, the union collects the walks of zero and one hops. -/
theorem rows_unionAll (lawful : LawfulEngine engine) (hsees : walk.Sees node)
    (hreads : hops.Reads node) (hcarried : carried ⊆ walk.source.outputColumns) {n m a : ℕ}
    (hnodup : (anchorColumns walk carried hops counts a).Nodup)
    {tables : ℕ → Multiset Row} {states : States} {sourceRows hopRows : Multiset Row}
    (hsourceRows : walk.source.rows engine tables states = .ok sourceRows)
    (hhopRows : node.hop.rows engine tables states = .ok hopRows) :
    (Node.unionAll (anchorNode walk carried hops counts a)
        (hoppedNode node walk carried hops counts
          ((anchorColumns walk carried hops counts a).map Column.type) n)
        (anchorColumns walk carried hops counts a)
        (freshColumns n ((anchorColumns walk carried hops counts a).map Column.type))
        (freshColumns m ((anchorColumns walk carried hops counts a).map Column.type))).rows
          engine tables states =
      .ok (stateRows engine walk carried hops counts
        (freshColumns m ((anchorColumns walk carried hops counts a).map Column.type))
        (∑ k ∈ Finset.range 2, pathsFrom engine node walk sourceRows hopRows k)) := by
  have htypes : (anchorColumns walk carried hops counts a).map Column.type =
      stateTypes walk carried hops counts := map_type_anchorColumns a
  have hanchor : (anchorNode walk carried hops counts a).rows engine tables states =
      .ok (stateRows engine walk carried hops counts (anchorColumns walk carried hops counts a)
        (pathsFrom engine node walk sourceRows hopRows 0)) := by
    rw [rows_anchor hreads hsourceRows, stateRows, pathsFrom, Walks.paths, Multiset.map_map]
    rfl
  have hshown : walk.source.rows engine tables states =
      .ok ((sourceRows.map fun row => (row, ([] : List Row))).map Prod.fst) := by
    rw [hsourceRows, Multiset.map_map]
    exact congrArg Except.ok (Multiset.map_id' sourceRows).symm
  have hempty (p : Row × List Row) (hp : p ∈ sourceRows.map fun row => (row, ([] : List Row))) :
      p = (p.1, []) := by
    obtain ⟨row, -, rfl⟩ := Multiset.mem_map.mp hp
    rfl
  have hshows (p : Row × List Row) (hp : p ∈ sourceRows.map fun row => (row, ([] : List Row))) :
      (sourceReading walk carried hops counts).Shows engine walk carried hops.collected counts p.1
        p := by
    rw [hempty p hp]
    exact sourceReading_shows hreads p.1
  have hhopped := rows_extended lawful hsees (sourceReading_of hsees hreads hcarried)
    hreads.mem_hop hshown hhopRows hshows
    (fun p hp => .inr (congrArg Prod.snd (hempty p hp)))
    (fun p hp => by rw [hempty p hp]; exact Nat.two_pow_pos 62) hops.arrayTypes
    ((anchorColumns walk carried hops counts a).map Column.type) n
  rw [Node.rows, hanchor, hoppedNode, hhopped]
  change Except.ok _ = Except.ok _
  rw [rename_stateRows hsees hreads hnodup htypes, ← stateRows,
    rename_stateRows hsees hreads (nodup_freshColumns ..)
      ((map_type_freshColumns ..).trans htypes), Finset.sum_range_succ, Finset.sum_range_one]
  exact congrArg Except.ok (Multiset.map_add _ _ _).symm

end Verax.LowerRepeat.Lowering
