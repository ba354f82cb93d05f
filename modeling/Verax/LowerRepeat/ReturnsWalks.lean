import Verax.LowerRepeat.Lowering

/-!
# Lowering a Repeat returns its walks

* `ReturnsWalks`: the pass builds a plan with the Repeat's columns and rows.
* `OneKind`: no column of the hop is output both for its value and for an array of its values.
* `plannedRow_eq`, `plannedRow_ne`: whether the plan's row for a walk is the Repeat's.
* `returnsWalks_iff`: the pass returns the walks exactly if its loop can be built and each column of
  the hop is output one way, unless there is no walk.
-/

namespace Verax.LowerRepeat.Lowering

open Verax.Lib Verax.Filters

section pass

variable {engine : Engine} {node : Repeat}

/-! ### Rows by their outputs -/

/-- A row has the value paired with a column. -/
lemma rowOf_map_zip {g : Column × Column → Value} :
    ∀ {sources outputs : List Column} {p : Column × Column}, sources.length = outputs.length →
      outputs.Nodup → p ∈ sources.zip outputs →
        rowOf outputs ((sources.zip outputs).map g) p.2 = g p
  | source :: sources, output :: outputs, p, hlength, hnodup, hp => by
      obtain ⟨hnew, hnodup⟩ := List.nodup_cons.mp hnodup
      rw [List.zip_cons_cons, List.map_cons, rowOf, List.zip_cons_cons, List.lookup_cons]
      rcases List.mem_cons.mp hp with rfl | hp
      · simp
      · have hne : p.2 ≠ output := fun h => hnew (h ▸ (List.of_mem_zip hp).2)
        rw [beq_eq_false_iff_ne.mpr hne]
        exact rowOf_map_zip (Nat.succ.inj hlength) hnodup hp

lemma plannedRow_apply (startRow : Row) (hops : List Row) (endRow : Row) {p : Column × Column}
    (hp : p ∈ node.effectiveSourceColumns.zip node.outputColumns) :
    plannedRow node startRow hops endRow p.2 = plannedValue node startRow hops endRow p.1 := by
  have hsources : node.effectiveSourceColumns.map (plannedValue node startRow hops endRow) =
      (node.effectiveSourceColumns.zip node.outputColumns).map
        fun p => plannedValue node startRow hops endRow p.1 := by
    conv_lhs => rw [← List.map_fst_zip node.sources_length.le, List.map_map]
    rfl
  rw [plannedRow, hsources, rowOf_map_zip node.sources_length node.outputs_nodup hp]

lemma outputRow_apply (startRow : Row) (hops : List Row) (endRow : Row) {p : Column × Column}
    (hp : p ∈ node.effectiveSourceColumns.zip node.outputColumns) :
    node.outputRow startRow hops endRow p.2 =
      node.outputValue p.1 p.2 startRow hops endRow := by
  rw [Repeat.outputRow, ← List.map_uncurry_zip_eq_zipWith,
    rowOf_map_zip node.sources_length node.outputs_nodup hp]
  rfl

/-! ### Values and arrays -/

/-- No column of the hop is output both for its value and for an array of its values. -/
def OneKind (node : Repeat) : Prop :=
  ∀ p ∈ node.effectiveSourceColumns.zip node.outputColumns,
    ∀ q ∈ node.effectiveSourceColumns.zip node.outputColumns,
      p.1 = q.1 → p.1 ∈ node.hop.outputColumns → p.2.type = p.1.type → q.2.type = q.1.type

instance (node : Repeat) : Decidable (OneKind node) :=
  inferInstanceAs (Decidable (∀ p ∈ node.effectiveSourceColumns.zip node.outputColumns, _))

lemma array_ne (type : SqlType) : SqlType.array type ≠ type := fun h => by
  simpa using congrArg sizeOf h

/-- A column of the hop is not the hop count. -/
lemma hopCount_ne_of_hop {c : Column} (hhop : c ∈ node.hop.outputColumns) :
    node.hopCount ≠ some c :=
  fun h => node.hopCount_fresh c h (by simp [hhop])

/-- What a Repeat gives a column of the hop. -/
lemma outputValue_hop {p : Column × Column}
    (hp : p ∈ node.effectiveSourceColumns.zip node.outputColumns)
    (hhop : p.1 ∈ node.hop.outputColumns) (startRow : Row) (hops : List Row) (endRow : Row) :
    node.outputValue p.1 p.2 startRow hops endRow =
      if p.2.type = .array p.1.type then .list (.ofList (hops.map (read · p.1)))
      else valueOn hops p.1 := by
  have hcount : node.hopCount ≠ some p.2 := fun h => by
    have hcarries : node.Carries p.1 p.2 := node.carries p hp
    rw [Repeat.Key.Carries, if_pos h] at hcarries
    exact hopCount_ne_of_hop hhop (hcarries.1 ▸ h)
  unfold Repeat.outputValue
  rw [if_neg hcount, if_neg fun h => node.start_hop h hhop, if_neg fun h => node.end_hop h hhop]
  rfl

/-- A collected column has an output that is no value of it. -/
lemma exists_of_collected {c : Column} (hc : c ∈ (HopColumns.of node).collected) :
    ∃ output, (c, output) ∈ node.effectiveSourceColumns.zip node.outputColumns ∧
      output.type ≠ c.type := by
  obtain ⟨type, -, -, output, hmem, rfl, hne⟩ := Outcome.exists_of_forall₂
    (HopColumns.collect_types node.hop.outputColumns
      (node.effectiveSourceColumns.zip node.outputColumns) []).2 hc
  exact ⟨output, hmem, hne⟩

/-- Without columns output both ways, the plan's value is the Repeat's. -/
lemma plannedValue_eq (hkind : OneKind node) {p : Column × Column}
    (hp : p ∈ node.effectiveSourceColumns.zip node.outputColumns) (startRow : Row)
    (hops : List Row) (endRow : Row) :
    plannedValue node startRow hops endRow p.1 =
      node.outputValue p.1 p.2 startRow hops endRow := by
  have hreads := HopColumns.of_reads node
  have hmem : p.1 ∈ (HopColumns.of node).values ∨ p.1 ∈ (HopColumns.of node).collected →
      p.1 ∈ node.hop.outputColumns := fun h => hreads.mem_hop p.1 (List.mem_append.mpr h)
  by_cases hhop : p.1 ∈ node.hop.outputColumns
  · rw [outputValue_hop hp hhop, plannedValue, if_neg (hopCount_ne_of_hop hhop)]
    split
    · rename_i hvalue
      obtain ⟨output, hpair, htype⟩ := (HopColumns.collect_types node.hop.outputColumns
        (node.effectiveSourceColumns.zip node.outputColumns) []).1 _ hvalue
      have hsame : p.2.type = p.1.type := hkind _ hpair p hp rfl hhop htype
      rw [if_neg (hsame ▸ (array_ne _).symm)]
    · rename_i hvalue
      have hcollected : p.1 ∈ (HopColumns.of node).collected :=
        (List.mem_append.mp (HopColumns.mem_collect hp hhop List.not_mem_nil)).resolve_left hvalue
      obtain ⟨output, hpair, hne⟩ := exists_of_collected hcollected
      have harray : p.2.type = .array p.1.type :=
        (carries_hop hhop hp).resolve_right fun h => hne (hkind p hp _ hpair rfl hhop h.1)
      rw [if_pos hcollected, if_pos harray]
  · obtain ⟨hvalues, hcollected⟩ := not_or.mp (hhop ∘ hmem)
    have hcarries : node.Carries p.1 p.2 := node.carries p hp
    rw [Repeat.Key.Carries] at hcarries
    rw [plannedValue, if_neg hvalues, if_neg hcollected]
    unfold Repeat.outputValue
    split_ifs at hcarries with hcount hside
    · rw [if_pos hcount, if_pos (hcarries.1 ▸ hcount)]
    · have hsource : node.hopCount ≠ some p.1 := hcarries ▸ hcount
      rw [if_neg hcount, if_neg hsource]
      split
      · rfl
      · rename_i hstart
        rw [if_pos ((List.mem_append.mp hside).resolve_left hstart)]
    · exact absurd hcarries.1 hhop

/-- Without columns output both ways, the plan's row for a walk is the Repeat's. -/
lemma plannedRow_eq (hkind : OneKind node) (startRow : Row) (hops : List Row) (endRow : Row) :
    plannedRow node startRow hops endRow = node.outputRow startRow hops endRow := by
  rw [plannedRow, Repeat.outputRow, ← List.map_uncurry_zip_eq_zipWith]
  conv_lhs => rw [← List.map_fst_zip node.sources_length.le, List.map_map]
  exact congrArg _ (List.map_congr_left fun p hp => plannedValue_eq hkind hp startRow hops endRow)

/-- With a column output both ways, the Repeat's rows have two values for it, and the plan's one. -/
lemma plannedRow_ne (hkind : ¬OneKind node) (startRow startRow' : Row) (hops hops' : List Row)
    (endRow endRow' : Row) :
    plannedRow node startRow hops endRow ≠ node.outputRow startRow' hops' endRow' := by
  intro hrow
  rw [OneKind] at hkind
  push Not at hkind
  obtain ⟨p, hp, q, hq, hsource, hhop, hvalue, harray⟩ := hkind
  have htype : q.2.type = .array q.1.type :=
    (carries_hop (hsource ▸ hhop) hq).resolve_right fun h => harray h.1
  have hsame : node.outputValue p.1 p.2 startRow' hops' endRow' =
      node.outputValue q.1 q.2 startRow' hops' endRow' := by
    rw [← outputRow_apply _ _ _ hp, ← outputRow_apply _ _ _ hq, ← hrow, plannedRow_apply _ _ _ hp,
      plannedRow_apply _ _ _ hq, hsource]
  rw [outputValue_hop hp hhop, outputValue_hop hq (hsource ▸ hhop), if_pos htype,
    if_neg (hvalue ▸ (array_ne _).symm), ← hsource] at hsame
  by_cases hone : hops'.length = 1
  · obtain ⟨hop, rfl⟩ := List.length_eq_one_iff.mp hone
    have hsize := congrArg sizeOf hsame
    simp only [valueOn, Values.ofList, List.map_cons, List.map_nil, Value.list.sizeOf_spec,
      Values.cons.sizeOf_spec, Values.nil.sizeOf_spec] at hsize
    omega
  · rw [valueOn_of_length_ne hone] at hsame
    cases hsame

/-! ### The pass -/

/-- The pass builds a plan for a Repeat that has its columns and rows. -/
def ReturnsWalks (engine : Engine) (tables : ℕ → Multiset Row) (states : States)
    (estimates : Node → Option ℚ) (node : Repeat) (n : ℕ)
    (startRows hopRows endRows : Multiset Row) : Prop :=
  ∃ plan m, rewriteRepeat estimates node n = .ok (plan, m) ∧
    plan.outputColumns = node.outputColumns ∧
    plan.rows engine tables states = .ok (node.walkRows engine startRows hopRows endRows)

variable {tables : ℕ → Multiset Row} {states : States} {startRows hopRows endRows : Multiset Row}

/-- What the pass returns, when it builds a plan. -/
lemma returnsWalks_of_builtOn (lawful : LawfulEngine engine) {estimates : Node → Option ℚ} {n m : ℕ}
    {plan walks : Node} {state : WalkState}
    (hplan : rewriteRepeat estimates node n = .ok (plan, m))
    (hbuilt : BuiltOn node (walkOf estimates node) plan walks state)
    (hstart : node.start.rows engine tables states = .ok startRows)
    (hhop : node.hop.rows engine tables states = .ok hopRows)
    (hend : ∀ e, node.endNode = some e → e.rows engine tables states = .ok endRows) :
    ReturnsWalks engine tables states estimates node n startRows hopRows endRows ↔
      OneKind node ∨ node.walksWithin engine startRows hopRows endRows = 0 := by
  have hrows := hbuilt.rows_walkOf lawful hstart hhop hend
  constructor
  · rintro ⟨plan', m', hplan', -, hrows'⟩
    obtain ⟨rfl, -⟩ := Prod.mk.inj (Except.ok.inj (hplan.symm.trans hplan'))
    refine or_iff_not_imp_left.mpr fun hkind => Multiset.eq_zero_of_forall_notMem fun w hw => ?_
    have hsame := Except.ok.inj (hrows.symm.trans hrows')
    rw [Repeat.walkRows] at hsame
    have hmem := Multiset.mem_map_of_mem (fun w => plannedRow node w.1 w.2.1 w.2.2) hw
    rw [hsame] at hmem
    obtain ⟨w', -, hrow⟩ := Multiset.mem_map.mp hmem
    exact plannedRow_ne hkind _ _ _ _ _ _ hrow.symm
  · intro hcond
    refine ⟨plan, m, hplan, hbuilt.plan_eq ▸ rfl, ?_⟩
    rw [hrows, Repeat.walkRows]
    rcases hcond with hkind | hnone
    · exact congrArg Except.ok (Multiset.map_congr rfl fun w _ => plannedRow_eq hkind ..)
    · rw [hnone, Multiset.map_zero, Multiset.map_zero]

/-- The pass returns the walks of a Repeat, whichever side they leave from, exactly if its loop can
be built (one more than the maximum is still an `int32_t`, and neither the hop nor the side the
walks leave from reads a recursive state) and no column of the hop is output both for its value and
for an array of its values, unless there is no walk. -/
theorem returnsWalks_iff (lawful : LawfulEngine engine) (estimates : Node → Option ℚ) {n : ℕ}
    (hmade : MadeBefore node n) (hstart : node.start.rows engine tables states = .ok startRows)
    (hhop : node.hop.rows engine tables states = .ok hopRows)
    (hend : ∀ e, node.endNode = some e → e.rows engine tables states = .ok endRows) :
    ReturnsWalks engine tables states estimates node n startRows hopRows endRows ↔
      (node.maxHops ≤ 1 ∨ LoopFits node (walkOf estimates node)) ∧
        (OneKind node ∨ node.walksWithin engine startRows hopRows endRows = 0) := by
  have hsees := walkOf_sees estimates node
  by_cases hshort : node.maxHops ≤ 1
  · obtain ⟨plan, m, walks, state, hplan, hbuilt⟩ := lower_short hsees hmade hshort
    rw [returnsWalks_of_builtOn lawful hplan hbuilt hstart hhop hend]
    exact (and_iff_right (.inl hshort)).symm
  · have hlower := lower_loops hsees hmade (not_le.mp hshort)
    by_cases hfits : LoopFits node (walkOf estimates node)
    · obtain ⟨plan, m, walks, state, hplan, hbuilt⟩ := hlower.1 hfits
      rw [returnsWalks_of_builtOn lawful hplan hbuilt hstart hhop hend]
      exact (and_iff_right (.inr hfits)).symm
    · obtain ⟨message, hmessage⟩ := hlower.2 hfits
      refine iff_of_false ?_ fun h => not_or.mpr ⟨hshort, hfits⟩ h.1
      rintro ⟨plan, m, hplan, -⟩
      exact nomatch hmessage.symm.trans hplan

end pass

/-! ### Friends of friends -/

namespace Knows

/-- An engine that adds numbers and elements. -/
def engine : Engine where
  key _ value := value
  compare _ _ a b := some (decide (a = b))
  cast _ _ _ value := value
  like _ _ := none
  field _ _ := .null
  call name args :=
    match name, args with
    | "plus", [.integral a, .integral b] => bigint (a + b)
    | "array_append", [.list elements, element] => .list (.ofList (elements.toList ++ [element]))
    | "array_prepend", [element, .list elements] => .list (.cons element elements)
    | _, _ => .null

lemma engine_lawful : LawfulEngine engine where
  compare_comm _ a b := congrArg some (decide_eq_decide.mpr eq_comm)
  plus a b ha hb hsum := by
    have ha' : -2 ^ 63 ≤ a ∧ a ≤ 2 ^ 63 - 1 := by omega
    have hb' : -2 ^ 63 ≤ b ∧ b ≤ 2 ^ 63 - 1 := by omega
    simp only [bigint, dif_pos ha', dif_pos hb', engine]
  append elements element := by
    simp [engine]
  prepend element elements := rfl

/-- Persons, whom they know, and persons again, with the persons met on the way. -/
def repeated (minHops maxHops : ℕ) : Repeat.Key where
  start := .scan 0 [⟨0, .bigint⟩]
  hop := .scan 1 [⟨1, .bigint⟩, ⟨2, .bigint⟩]
  endNode := some (.scan 0 [⟨3, .bigint⟩])
  startKeys := [.column ⟨0, .bigint⟩]
  hopSourceKeys := [.column ⟨1, .bigint⟩]
  hopDestinationKeys := [.column ⟨2, .bigint⟩]
  endKeys := [.column ⟨3, .bigint⟩]
  minHops := minHops
  maxHops := maxHops
  outputColumns := [⟨0, .bigint⟩, ⟨3, .bigint⟩, ⟨4, .array .bigint⟩]
  sourceColumns := [⟨0, .bigint⟩, ⟨3, .bigint⟩, ⟨1, .bigint⟩]
  hopCount := none

/-- Persons who know each other over between two and `maxHops` persons. -/
def node (maxHops : ℕ) (hmin : 2 ≤ maxHops) (hmax : maxHops < 2 ^ 31) : Repeat where
  toKey := repeated 2 maxHops
  startKeys_ne := List.cons_ne_nil _ _
  hopSource_types := rfl
  hopDestination_types := rfl
  end_types := rfl
  minHops_le := hmin
  maxHops_lt := hmax
  not_oneHop := by simp [repeated]
  startKeys_read := by simp [repeated, Expr.columns, Node.outputColumns]
  hopSourceKeys_read := by simp [repeated, Expr.columns, Node.outputColumns]
  hopDestinationKeys_read := by simp [repeated, Expr.columns, Node.outputColumns]
  endKeys_read := by simp [repeated, Expr.columns, Node.outputColumns]
  sources_length := rfl
  carries := by
    simp [Repeat.Key.Carries, Repeat.Key.effectiveSourceColumns, Repeat.Key.endColumns, repeated,
      Node.outputColumns]
  hopCount_mem := by simp [repeated]
  outputs_nodup := by simp [repeated]
  start_hop := by simp [repeated, Node.outputColumns]
  start_end := by simp [repeated, Repeat.Key.endColumns, Node.outputColumns]
  end_hop := by simp [repeated, Repeat.Key.endColumns, Node.outputColumns]
  hopCount_fresh := by simp [repeated]

/-- A bag of two persons who know each other. -/
def tables (table : ℕ) : Multiset Row :=
  let person (id : ℤ) : Row := fun c => bigint (if c.id = 2 then 3 - id else id)
  if table ≤ 1 then {person 1, person 2} else 0

lemma madeBefore (maxHops : ℕ) (hmin : 2 ≤ maxHops) (hmax : maxHops < 2 ^ 31) :
    MadeBefore (node maxHops hmin hmax) 5 where
  start := by simp [Below, node, repeated, Node.outputColumns]
  hop := by simp [Below, node, repeated, Node.outputColumns]
  endNode := by simp [Below, node, repeated, Repeat.Key.endColumns, Node.outputColumns]

/-- Up to three hops, the loop returns the walks. -/
theorem returns_walks_within_three : ReturnsWalks engine tables (fun _ => none) (fun _ => none)
    (node 3 (by decide) (by decide)) 5 (tables 0) (tables 1) (tables 0) :=
  (returnsWalks_iff engine_lawful (fun _ => none) (madeBefore 3 (by decide) (by decide)) rfl rfl
    (fun e he => by obtain rfl := Option.some.inj he; rfl)).mpr
      ⟨.inr ⟨by decide, rfl, rfl⟩, .inl (by decide)⟩

/-- Up to the largest number of hops, the loop's bound overflows and the pass fails. -/
theorem fails_within_largest :
    ¬ReturnsWalks engine tables (fun _ => none) (fun _ => none)
      (node (2 ^ 31 - 1) (by decide) (by decide)) 5 (tables 0) (tables 1) (tables 0) ∧
    rewriteRepeat (fun _ => none) (node (2 ^ 31 - 1) (by decide) (by decide)) 5 =
      .error "FixedPoint maxIterations must be at least one" := by
  have hfails : rewriteRepeat (fun _ => none) (node (2 ^ 31 - 1) (by decide) (by decide)) 5 =
      .error "FixedPoint maxIterations must be at least one" := rfl
  refine ⟨?_, hfails⟩
  rintro ⟨plan, m, hplan, -⟩
  exact nomatch hfails.symm.trans hplan

end Knows

end Verax.LowerRepeat.Lowering
