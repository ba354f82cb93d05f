import Verax.DistinctAggregates.Lowered

/-!
# The lowering keeps what the calls compute

Over the lowered input, a call with a marker reads one row of each distinct tuple of its arguments
among the rows of its group that pass its FILTER.

* `evaluates_of_marked`: a call with a marker computes what the DISTINCT call computes.
* `Computes`: calls over rows give the rows that other calls give over other rows.
* `computes_expandDistinct`: the lowering.
-/

namespace Verax.DistinctAggregates

open Lib.Representatives

variable {V : Type} [Setoid V] {engine : Engine V} {firstId : ℕ}

/-! ### Tuples -/

lemma sameTuple_map {α : Type} {f g : α → V} {l : List α} :
    SameTuple (l.map f) (l.map g) ↔ ∀ a ∈ l, f a ≈ g a := by
  rw [SameTuple, List.forall₂_map_left_iff, List.forall₂_map_right_iff, List.forall₂_same]

/-- Rows of one group that agree on the keys of a call agree on its arguments. -/
lemma sameKeys_iff_sameTuple {groupingKeys keys : List Column} {args : List (Expr V)}
    (hkeys : ∀ c, c ∈ keys ↔ c ∈ groupingKeys ∨ .column c ∈ args)
    (hargs : ∀ e ∈ args, (∃ value, e = .literal value) ∨ e.IsInputColumn firstId)
    {row row' : Row V} (hgroup : SameTuple (groupingKeys.map row) (groupingKeys.map row')) :
    SameKeys keys row row' ↔
      SameTuple (args.map (engine.eval row)) (args.map (engine.eval row')) := by
  rw [sameTuple_map]
  constructor
  · intro hsame e he
    cases e with
    | column c => exact hsame c ((hkeys c).mpr (.inr he))
    | literal value => exact Setoid.refl value
    | call text =>
        rcases hargs _ he with ⟨value, hvalue⟩ | hcolumn
        · cases hvalue
        · exact hcolumn.elim
  · intro hsame c hc
    rcases (hkeys c).mp hc with hc | hc
    · exact sameTuple_map.mp hgroup c hc
    · exact hsame _ hc

variable [DecidableRel fun v w : V => v ≈ w]

/-! ### Calls -/

/-- A call computes some value. -/
lemma exists_evaluates (engine : Engine V) (call : AggregateCall V) (rows : Multiset (Row V)) :
    ∃ value, call.Evaluates engine rows value := by
  cases hdistinct : call.isDistinct with
  | false => exact ⟨_, by rw [AggregateCall.Evaluates, hdistinct]; exact rfl⟩
  | true =>
      obtain ⟨chosen, hchosen⟩ := exists_represents
        (r := fun p q : List V × List V => SameTuple p.1 q.1)
        ⟨fun p => sameTuple_equivalence.refl p.1, sameTuple_equivalence.symm,
          sameTuple_equivalence.trans⟩ (call.contributions engine rows)
      exact ⟨_, by rw [AggregateCall.Evaluates, hdistinct]; exact ⟨chosen, hchosen, rfl⟩⟩

/-- A call with a marker computes what the DISTINCT call computes. -/
lemma evaluates_of_marked {groupingKeys : List Column} {key : List V} {call : AggregateCall V}
    {marker : Column} {group : MarkDistinctGroup V} {rows : Multiset (Row V)} {value : V}
    (hserves : Serves groupingKeys call marker group) (hcall : call.Precomputed firstId)
    (hmarked : Marked engine group.keys call.condition marker rows)
    (h : (call.replaceDistinctAndFilterByMarker marker).Evaluates engine
      (groupOf groupingKeys key rows) value) :
    call.Evaluates engine (groupOf groupingKeys key rows) value := by
  rw [AggregateCall.Evaluates, if_pos hserves.distinct]
  refine ⟨_, ?_, h⟩
  have hgroup : ∀ row row', SameKeys group.keys row row' →
      SameTuple (groupingKeys.map row') key → SameTuple (groupingKeys.map row) key := by
    intro row row' hsame hkey
    refine sameTuple_equivalence.trans (sameTuple_map.mpr fun c hc => ?_) hkey
    exact hsame c ((hserves.keys c).mpr (.inl hc))
  have hswap : ∀ p : Row V → Prop, ∀ [DecidablePred p],
      (rows.filter p).filter (fun row => SameTuple (groupingKeys.map row) key) =
        (groupOf groupingKeys key rows).filter p := fun p _ => Multiset.filter_comm _ _ _
  have hrepresents := represents_filter hmarked.represents hgroup
  rw [hswap, hswap] at hrepresents
  refine represents_map (f := fun row : Row V =>
    (call.args.map (engine.eval row), call.orderKeys.map (engine.eval row))) hrepresents
    fun row hrow row' hrow' => ?_
  refine sameKeys_iff_sameTuple hserves.keys hcall.args ?_
  have hrowKey := (Multiset.mem_filter.mp (Multiset.mem_filter.mp hrow).1).2
  have hrowKey' := (Multiset.mem_filter.mp (Multiset.mem_filter.mp hrow').1).2
  exact sameTuple_equivalence.trans hrowKey (sameTuple_equivalence.symm hrowKey')

/-! ### Fresh columns -/

section Fresh

variable {columns : List Column} (hfresh : ∀ c ∈ columns, firstId ≤ c.id)

include hfresh

omit [Setoid V] [DecidableRel fun v w : V => v ≈ w] in
lemma eval_erase {e : Expr V} (he : (∃ value, e = .literal value) ∨ e.IsInputColumn firstId)
    (row : Row V) : engine.eval (erase engine columns row) e = engine.eval row e := by
  rcases he with ⟨value, rfl⟩ | hcolumn
  · rfl
  · cases e with
    | column c =>
        exact erase_of_not_mem engine (fun hmem => absurd (hfresh c hmem) (not_le.mpr hcolumn)) row
    | literal value => rfl
    | call text => exact hcolumn.elim

omit [Setoid V] [DecidableRel fun v w : V => v ≈ w] in
lemma map_keys_erase {groupingKeys : List Column} (hkeys : ∀ c ∈ groupingKeys, c.id < firstId)
    (row : Row V) : groupingKeys.map (erase engine columns row) = groupingKeys.map row :=
  List.map_congr_left fun c hc =>
    erase_of_not_mem engine (fun hmem => absurd (hfresh c hmem) (not_le.mpr (hkeys c hc))) row

/-- What a call reads of a group. -/
lemma contributions_groupOf_erase {groupingKeys : List Column}
    (hkeys : ∀ c ∈ groupingKeys, c.id < firstId) {call : AggregateCall V}
    (hcall : call.Precomputed firstId) (key : List V) (rows : Multiset (Row V)) :
    call.contributions engine (groupOf groupingKeys key (rows.map (erase engine columns))) =
      call.contributions engine (groupOf groupingKeys key rows) := by
  have haccepts : ∀ row, engine.accepts call.condition (erase engine columns row) =
      engine.accepts call.condition row := by
    intro row
    cases hcondition : call.condition with
    | none => rfl
    | some e =>
        exact congrArg engine.truth (eval_erase hfresh (.inr (hcall.condition e hcondition)) row)
  simp only [AggregateCall.contributions, groupOf, Multiset.filter_map, Multiset.map_map,
    Function.comp_def, haccepts, map_keys_erase hfresh hkeys]
  refine Multiset.map_congr rfl fun row _ => ?_
  rw [List.map_congr_left fun e he => eval_erase hfresh (hcall.args e he) row,
    List.map_congr_left fun e he => eval_erase hfresh (.inr (hcall.orderKeys e he)) row]

omit [Setoid V] [DecidableRel fun v w : V => v ≈ w] in
lemma isKey_erase (engine : Engine V) {groupingKeys : List Column}
    (hkeys : ∀ c ∈ groupingKeys, c.id < firstId) {key : List V} {rows : Multiset (Row V)} :
    IsKey groupingKeys (rows.map (erase engine columns)) key ↔ IsKey groupingKeys rows key := by
  simp only [IsKey, Multiset.mem_map, exists_exists_and_eq_and, map_keys_erase hfresh hkeys]

end Fresh

/-! ### The lowering -/

/-- Calls over rows give the rows that other calls give over other rows: they have the groups of
these, give a row for each, and no row that these do not give. -/
structure Computes (engine : Engine V) (groupingKeys : List Column) (calls : List (AggregateCall V))
    (rows : Multiset (Row V)) (calls' : List (AggregateCall V)) (rows' : Multiset (Row V)) :
    Prop where
  isKey : ∀ key, IsKey groupingKeys rows key ↔ IsKey groupingKeys rows' key
  gives : ∀ key, IsKey groupingKeys rows key →
    ∃ values, GivesRow engine groupingKeys calls rows key values
  sound : ∀ key values, GivesRow engine groupingKeys calls rows key values →
    GivesRow engine groupingKeys calls' rows' key values

lemma exists_givesRow {groupingKeys : List Column} {rows : Multiset (Row V)} {key : List V}
    (hkey : IsKey groupingKeys rows key) (calls : List (AggregateCall V)) :
    ∃ values, GivesRow engine groupingKeys calls rows key values := by
  choose value hvalue using fun call : AggregateCall V =>
    exists_evaluates engine call (groupOf groupingKeys key rows)
  exact ⟨calls.map value, hkey,
    List.forall₂_map_right_iff.mpr (List.forall₂_same.mpr fun call _ => hvalue call)⟩

lemma computes_refl (groupingKeys : List Column) (calls : List (AggregateCall V))
    (rows : Multiset (Row V)) : Computes engine groupingKeys calls rows calls rows :=
  ⟨fun _ => Iff.rfl, fun _ hkey => exists_givesRow hkey calls, fun _ _ h => h⟩

omit [Setoid V] [DecidableRel fun v w : V => v ≈ w] in
lemma allMarkers_groups (groups : Groups V) :
    allMarkers (groups.map Prod.snd) = groups.markers := by
  rw [allMarkers, List.flatMap_map]
  rfl

variable [DecidableEq V]

/-- The calls over the lowered input. -/
lemma computes_rewriteCall {base : PhysicalProperties V} {groupingKeys : List Column}
    {aggregates : List (AggregateCall V)} {numDrivers : ℕ} {expansion : Expansion V}
    {drivers output : List (List (Row V))} (hkeys : ∀ c ∈ groupingKeys, c.id < firstId)
    (hcalls : ∀ call ∈ aggregates, call.Precomputed firstId)
    (hinvariant : expansion.Invariant groupingKeys firstId)
    (houtput : Output engine firstId numDrivers (expansion.groups.map Prod.snd) base drivers
      output) :
    Computes engine groupingKeys (aggregates.map expansion.rewriteCall)
      (output.flatten : Multiset (Row V)) aggregates (drivers.flatten : Multiset (Row V)) := by
  have hmarkers := allMarkers_groups expansion.groups
  have hfresh : ∀ c ∈ allMarkers (expansion.groups.map Prod.snd), firstId ≤ c.id := fun c hc =>
    (hinvariant.fresh.range c (hmarkers ▸ hc)).1
  have hisKey : ∀ key, IsKey groupingKeys (output.flatten : Multiset (Row V)) key ↔
      IsKey groupingKeys (drivers.flatten : Multiset (Row V)) key := by
    intro key
    rw [← isKey_erase hfresh engine hkeys, houtput.rows, isKey_erase hfresh engine hkeys]
  have hcontributions : ∀ call ∈ aggregates, ∀ key, call.contributions engine
        (groupOf groupingKeys key (output.flatten : Multiset (Row V))) =
      call.contributions engine
        (groupOf groupingKeys key (drivers.flatten : Multiset (Row V))) := by
    intro call hcall key
    rw [← contributions_groupOf_erase hfresh hkeys (hcalls call hcall), houtput.rows,
      contributions_groupOf_erase hfresh hkeys (hcalls call hcall)]
  refine ⟨hisKey, fun _ hkey => exists_givesRow hkey _, fun key values h => ?_⟩
  refine ⟨(hisKey key).mp h.isKey, ?_⟩
  refine ((List.forall₂_and_left _ _).mpr
    ⟨fun call hcall => hcall, List.forall₂_map_left_iff.mp h.evaluates⟩).imp ?_
  rintro call value ⟨hcall, hvalue⟩
  have hover : call.Evaluates engine
      (groupOf groupingKeys key (output.flatten : Multiset (Row V))) value := by
    unfold Expansion.rewriteCall at hvalue
    split at hvalue
    · next marker hlookup =>
        obtain ⟨q, hq, hserves⟩ := hinvariant.served _ (Lib.Dictionary.mem_of_lookup hlookup)
        exact evaluates_of_marked hserves (hcalls call hcall)
          (houtput.marked q.2 (List.mem_map_of_mem hq) _ hserves.filter) hvalue
    · exact hvalue
  unfold AggregateCall.Evaluates at hover ⊢
  rwa [hcontributions call hcall key] at hover

/-- For every aggregate over columns of its input, with DISTINCT and plain calls, FILTERs and any
grouping keys, the lowered plan runs on every input, and over its output the new calls give the
rows that the calls give over the input: a row for each group, with what each DISTINCT call computes
over the distinct tuples of its arguments. -/
theorem computes_expandDistinct (engine : Engine V) {base : PhysicalProperties V}
    {groupingKeys : List Column} {aggregates : List (AggregateCall V)} {numDrivers nextId : ℕ}
    (hkeys : ∀ c ∈ groupingKeys, c.id < nextId)
    (hcalls : ∀ call ∈ aggregates, call.Precomputed nextId) :
    ∃ node calls,
      expandDistinct base groupingKeys aggregates numDrivers nextId = .ok (node, calls) ∧
      ∀ drivers : List (List (Row V)), drivers.length ≤ numDrivers → base.Holds engine drivers →
        (∃ output, node.Runs engine numDrivers drivers output) ∧
        ∀ output, node.Runs engine numDrivers drivers output →
          Computes engine groupingKeys calls output.flatten aggregates drivers.flatten := by
  have hnothing : ∀ drivers : List (List (Row V)),
      (∃ output, Node.input.Runs engine numDrivers drivers output) ∧
      ∀ output, Node.input.Runs engine numDrivers drivers output →
        Computes engine groupingKeys aggregates output.flatten aggregates drivers.flatten := by
    intro drivers
    refine ⟨⟨drivers, rfl⟩, ?_⟩
    rintro _ rfl
    exact computes_refl groupingKeys aggregates _
  unfold expandDistinct
  split
  · exact ⟨.input, aggregates, rfl, fun drivers _ _ => hnothing drivers⟩
  · have hstart : Expansion.Invariant groupingKeys nextId (⟨[], [], nextId⟩ : Expansion V) :=
      ⟨le_rfl, by simp [Groups.WellFormed], fresh_nil, by simp⟩
    obtain ⟨expansion, hloop, hinvariant⟩ := exists_expansion hkeys hcalls hstart
    rw [hloop]
    cases hany : aggregates.any (·.isDistinct) with
    | false =>
        exact ⟨.input, aggregates, by simp [bind, Except.bind], fun drivers _ _ => hnothing drivers⟩
    | true =>
        refine ⟨_, _, by simp [bind, Except.bind]; exact ⟨rfl, rfl⟩, ?_⟩
        intro drivers hlength hholds
        have hmarkers := allMarkers_groups expansion.groups
        have hwf : ∀ group ∈ expansion.groups.map Prod.snd, group.WellFormed nextId := by
          intro group hgroup
          obtain ⟨p, hp, rfl⟩ := List.mem_map.mp hgroup
          exact (hinvariant.groups p hp).1
        have hlowered := lowered_foldl (lowered_input hlength hholds) hwf
          (hmarkers ▸ hinvariant.fresh.nodup)
          (fun c hc => (hinvariant.fresh.range c (hmarkers ▸ hc)).1)
        refine ⟨hlowered.runs, fun output hruns => ?_⟩
        exact computes_rewriteCall hkeys hcalls hinvariant (hlowered.output output hruns)

/-! ### Counting -/

namespace Counting

/-- A nullable integer; 1 is true. -/
inductive Cell where
  | null
  | int (n : ℕ)
  deriving DecidableEq

instance : Setoid Cell := ⟨Eq, eq_equivalence⟩

instance : DecidableRel fun v w : Cell => v ≈ w := fun v w => inferInstanceAs (Decidable (v = w))

/-- The only aggregate counts the tuples without NULL. -/
def countEngine : Engine Cell where
  truth v := decide (v = .int 1)
  boolean b := .int b.toNat
  truth_boolean b := by cases b <;> rfl
  call _ _ := .null
  aggregate _ _ tuples := .int (tuples.countP fun p => Cell.null ∉ p.1)

/-- A row of a key, a value and a condition. -/
def row (key value condition : Cell) : Row Cell
  | ⟨0⟩ => key
  | ⟨1⟩ => value
  | ⟨2⟩ => condition
  | _ => .null

/-- Two calls count the distinct values, one of them under a FILTER, and one counts all. -/
def aggregates : List (AggregateCall Cell) :=
  [⟨"count", [.column ⟨1⟩], true, none, [], []⟩,
    ⟨"count", [.column ⟨1⟩, .column ⟨1⟩], true, some (.column ⟨2⟩), [], []⟩,
    ⟨"count", [.column ⟨1⟩], false, none, [], []⟩]

/-- Both drivers have rows of the group. -/
def drivers : List (List (Row Cell)) :=
  [[row (.int 7) (.int 5) (.int 0), row (.int 7) .null (.int 1)],
    [row (.int 7) (.int 5) (.int 1), row (.int 8) (.int 5) .null]]

/-- One MarkDistinct with a mask, over an exchange, counts the distinct values. -/
theorem computes_expandDistinct_counting :
    ∃ node calls,
      expandDistinct ⟨.arbitrary, []⟩ [⟨0⟩] aggregates 2 3 = .ok (node, calls) ∧
      node = .markDistinct (.exchange .input [⟨0⟩, ⟨1⟩]) [⟨3⟩, ⟨4⟩] [⟨0⟩, ⟨1⟩] [⟨2⟩] ∧
      ∃ output, node.Runs countEngine 2 drivers output ∧
        Computes countEngine [⟨0⟩] calls output.flatten aggregates drivers.flatten := by
  have hcalls : ∀ call ∈ aggregates, call.Precomputed 3 := by
    intro call hcall
    simp only [aggregates, List.mem_cons, List.not_mem_nil, or_false] at hcall
    rcases hcall with rfl | rfl | rfl <;>
      exact ⟨by simp [Expr.IsInputColumn], by simp [Expr.IsInputColumn], by simp⟩
  obtain ⟨node, calls, hlowered, hcomputes⟩ :=
    @computes_expandDistinct Cell _ _ _ countEngine ⟨.arbitrary, []⟩ [⟨0⟩] aggregates 2 3
      (by decide) hcalls
  have hholds : PhysicalProperties.Holds countEngine ⟨.arbitrary, []⟩ drivers :=
    ⟨by simp, by simp, by simp⟩
  obtain ⟨⟨output, hruns⟩, hevery⟩ := hcomputes drivers le_rfl hholds
  refine ⟨node, calls, hlowered, ?_, output, hruns, hevery output hruns⟩
  have hnode : ∃ calls, expandDistinct ⟨.arbitrary, []⟩ [⟨0⟩] aggregates 2 3 = .ok
      (.markDistinct (.exchange .input [⟨0⟩, ⟨1⟩]) [⟨3⟩, ⟨4⟩] [⟨0⟩, ⟨1⟩] [⟨2⟩], calls) := ⟨_, rfl⟩
  obtain ⟨calls', hcalls'⟩ := hnode
  rw [hlowered] at hcalls'
  cases hcalls'
  rfl

end Counting

end Verax.DistinctAggregates
