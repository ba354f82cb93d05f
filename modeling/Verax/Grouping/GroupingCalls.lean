import Verax.Grouping.GroupingKeys
import Verax.Grouping.GroupingSets
import Verax.Lib.BitStrings

/-!
# GROUPING calls

* `groupingValue`: what a GROUPING call is for a grouping set.
* `rewriteGroupingMarker_spec`: an expression with its GROUPING calls replaced computes what it did
  with their values.
* `plan_spec`: the sets of a GROUP BY clause, and the clauses that read them.
-/

namespace Verax.Grouping

open Verax.Filters Verax.Lib Verax.Lib.Dictionary

/-! ### What a GROUPING call is -/

/-- A number as a value. Out of range there is none. -/
def number (n : ℕ) : Value :=
  if h : (n : ℤ) ≤ 2 ^ 63 - 1 then .integral ⟨n, by omega⟩ else .null

/-- The value of a GROUPING call for a set of keys: the number whose bits, the leftmost argument's
first, are 1 for the arguments absent from the set. -/
def groupingValue (args set : List IExpr) : Value :=
  number (BitStrings.ofBits (args.map fun arg => decide (arg ∉ set)))

/-- An argument of a GROUPING call has to be a column. -/
def IExpr.isColumn : IExpr → Bool
  | .node (.fieldAccess _) _ => true
  | _ => false

mutual

/-- The GROUPING calls of an expression are over one to 63 grouping columns, and none is in an
aggregate. -/
def IExpr.GroupingsOver (groupingKeys : List IExpr) : IExpr → Prop
  | .node kind inputs =>
      if kind = .call groupingFunctionName then
        inputs.toList ≠ [] ∧ inputs.toList.length ≤ 63 ∧
          ∀ arg ∈ inputs.toList, arg.isColumn = true ∧ arg ∈ groupingKeys
      else inputs.GroupingsOver groupingKeys
  | .aggregate _ _ inputs filter orderBy =>
      inputs.haveNoGrouping = true ∧ filter.haveNoGrouping = true ∧ orderBy.haveNoGrouping = true
  | .window _ inputs partitionKeys orderByKeys frameValues =>
      inputs.GroupingsOver groupingKeys ∧ partitionKeys.GroupingsOver groupingKeys ∧
        orderByKeys.GroupingsOver groupingKeys ∧ frameValues.GroupingsOver groupingKeys

def IExprs.GroupingsOver (groupingKeys : List IExpr) : IExprs → Prop
  | .nil => True
  | .cons head tail => head.GroupingsOver groupingKeys ∧ tail.GroupingsOver groupingKeys

end

mutual

/-- More grouping columns allow more GROUPING calls. -/
lemma IExpr.GroupingsOver.mono {keys keys' : List IExpr} (hkeys : keys ⊆ keys') :
    (e : IExpr) → e.GroupingsOver keys → e.GroupingsOver keys'
  | .node kind inputs, h => by
      rw [IExpr.GroupingsOver] at h ⊢
      split at h
      · rename_i hkind
        rw [if_pos hkind]
        exact ⟨h.1, h.2.1, fun arg harg => ⟨(h.2.2 arg harg).1, hkeys (h.2.2 arg harg).2⟩⟩
      · rename_i hkind
        rw [if_neg hkind]
        exact IExprs.GroupingsOver.mono hkeys inputs h
  | .aggregate _ _ _ _ _, h => h
  | .window _ inputs partitionKeys orderByKeys frameValues, h =>
      ⟨IExprs.GroupingsOver.mono hkeys inputs h.1,
        IExprs.GroupingsOver.mono hkeys partitionKeys h.2.1,
        IExprs.GroupingsOver.mono hkeys orderByKeys h.2.2.1,
        IExprs.GroupingsOver.mono hkeys frameValues h.2.2.2⟩

lemma IExprs.GroupingsOver.mono {keys keys' : List IExpr} (hkeys : keys ⊆ keys') :
    (es : IExprs) → es.GroupingsOver keys → es.GroupingsOver keys'
  | .nil, _ => trivial
  | .cons head tail, h =>
      ⟨IExpr.GroupingsOver.mono hkeys head h.1, IExprs.GroupingsOver.mono hkeys tail h.2⟩

end

/-- What the planner relies on of the engine: a row above the aggregation has the number of its
grouping set, which an index can be computed from, in the column for it; and literals, sums and the
elements of arrays, counted from one, are what they say. -/
structure LawfulEngine {Env : Type} (engine : Engine Env) (numSets : ℕ) (setNumber : Env → ℕ) :
    Prop where
  setNumber_lt : ∀ env, setNumber env < numSets
  setNumber_bigint : ∀ env, setNumber env + 1 < 2 ^ 63
  setId : numSets ≠ 1 → ∀ env,
    engine.node (.fieldAccess GroupByPlanner.groupingSetIdColumn) [] env = number (setNumber env)
  constant : ∀ value type env, engine.node (.constant value type) [] env = value
  plus : ∀ (f g : Env → Value) env a b, f env = number a → g env = number b → a + b < 2 ^ 63 →
    engine.node (.call "plus") [f, g] env = number (a + b)
  elementAt : ∀ (f g : Env → Value) env elements i value, f env = .list (.ofList elements) →
    g env = number (i + 1) → i + 1 < 2 ^ 63 → elements[i]? = some value →
      engine.node (.call "element_at") [f, g] env = value

namespace GroupByPlanner

/-! ### The bit masks -/

lemma number_toNat {w : ℕ} {value : BitVec w} (hw : w ≤ 64) (h : 2 * value.toNat < 2 ^ w)
    {hrange : -2 ^ 63 ≤ value.toInt ∧ value.toInt ≤ 2 ^ 63 - 1} :
    Value.integral ⟨value.toInt, hrange⟩ = number value.toNat := by
  have hle : 2 ^ w ≤ 2 ^ 64 := Nat.pow_le_pow_right (by omega) hw
  have hint : value.toInt = value.toNat := BitVec.toInt_eq_toNat_of_lt h
  have hsmall : (value.toNat : ℤ) ≤ 2 ^ 63 - 1 := by omega
  rw [number, dif_pos hsmall]
  simp only [hint]

/-- A literal has its value in either type. -/
lemma groupingLiteral_eq {numColumns : ℕ} (hmax : numColumns ≤ 63) {value : BitVec 64}
    (h : value.toNat < 2 ^ numColumns) : groupingLiteral numColumns value = number value.toNat := by
  rw [groupingLiteral]
  split
  · rename_i hint
    have hle : 2 ^ numColumns ≤ 2 ^ 31 := Nat.pow_le_pow_right (by omega) hint
    have hsame : (value.setWidth 32).toNat = value.toNat := by
      rw [BitVec.toNat_setWidth]
      exact Nat.mod_eq_of_lt (by omega)
    rw [int32, number_toNat (by omega) (by omega), hsame]
  · have hle : 2 ^ numColumns ≤ 2 ^ 63 := Nat.pow_le_pow_right (by omega) hmax
    exact number_toNat (by omega) (by omega)

/-- The bit mask of a set has a 1 for each column absent from it, the first column's the highest. -/
lemma toNat_bitmaskOf {columnIndices groupingSet : List ℕ} (h : columnIndices.length ≤ 63) :
    (bitmaskOf columnIndices groupingSet).toNat =
      BitStrings.ofBits (columnIndices.map fun column => decide (column ∉ groupingSet)) := by
  have hclear := BitStrings.toNat_clearBits (w := 64) (· ∈ groupingSet) (h.trans (by omega))
  simp only [decide_not]
  exact hclear

/-! ### The lookups -/

/-- The keys and sets of a plan: the sets hold keys by their indices, none twice, and each key is in
a set. -/
structure GroupByPlan.WellFormed (plan : GroupByPlan) : Prop where
  keys : plan.keys.WellFormed
  nodup : ∀ set ∈ plan.groupingSetsIndices, set.Nodup
  lt_length : ∀ set ∈ plan.groupingSetsIndices, ∀ i ∈ set, i < plan.keys.groupingKeys.length
  covered : ∀ e ∈ plan.keys.groupingKeys,
    ∃ set ∈ plan.groupingSetsIndices, e ∈ plan.keys.keysOf set

/-- The keys of a set by its number. -/
def GroupByPlan.keysOfSet (plan : GroupByPlan) (number : ℕ) : List IExpr :=
  plan.keys.keysOf (plan.groupingSetsIndices[number]?.getD [])

/-- What GROUPING calls are for the rows of an aggregation. -/
def GroupByPlan.groupingOf {Env : Type} (plan : GroupByPlan) (setNumber : Env → ℕ)
    (args : List IExpr) (env : Env) : Value :=
  groupingValue args (plan.keysOfSet (setNumber env))

variable {plan : GroupByPlan} (hplan : plan.WellFormed)
include hplan

/-- An expression stands for GROUPING calls: none is in it, and it computes the same. -/
def Stands (plan : GroupByPlan) (e e' : IExpr) : Prop :=
  e'.hasNoGrouping = true ∧ ∀ {Env : Type} {engine : Engine Env} {setNumber : Env → ℕ},
    LawfulEngine engine plan.groupingSetsIndices.length setNumber →
      ∀ grouping, e'.meaning engine grouping = e.meaning engine (plan.groupingOf setNumber)

lemma argumentIndex_eq {arg : IExpr} (hcolumn : arg.isColumn = true)
    (hkey : arg ∈ plan.keys.groupingKeys) : ∃ i,
      argumentIndex plan.keys.groupingKeyToIndex arg = .ok i ∧
        plan.keys.groupingKeys[i]? = some arg := by
  obtain ⟨i, hi⟩ := List.mem_iff_getElem?.mp hkey
  refine ⟨i, ?_, hi⟩
  have hlookup := (hplan.keys.lookup_iff arg i).mpr hi
  cases arg with
  | node kind inputs =>
    cases kind with
    | fieldAccess name => simp only [argumentIndex, hlookup]
    | _ => cases hcolumn
  | _ => cases hcolumn

/-- The bits of a set's mask are those for its keys. -/
lemma map_absent {columnIndices : List ℕ} {args : List IExpr}
    (h : List.Forall₂ (fun arg i => plan.keys.groupingKeys[i]? = some arg) args columnIndices)
    (set : List ℕ) : (columnIndices.map fun column => decide (column ∉ set)) =
      args.map fun arg => decide (arg ∉ plan.keys.keysOf set) := by
  rw [← List.forall₂_eq_eq_eq, List.forall₂_map_left_iff, List.forall₂_map_right_iff]
  refine h.flip.imp fun i arg hi => ?_
  rw [decide_eq_decide, Keys.mem_keysOf hplan.keys.nodup hi]

/-- A GROUPING call over grouping columns is replaced by an expression that computes its value. -/
lemma rewriteGroupingCall_spec {inputs : IExprs} (hne : inputs.toList ≠ [])
    (hmax : inputs.toList.length ≤ 63)
    (hargs : ∀ arg ∈ inputs.toList, arg.isColumn = true ∧ arg ∈ plan.keys.groupingKeys) :
    ∃ e', rewriteGroupingCall plan.keys.groupingKeyToIndex plan.groupingSetsIndices
        inputs.toList = .ok e' ∧ Stands plan (.node (.call groupingFunctionName) inputs) e' := by
  obtain ⟨columnIndices, hindices, hforall⟩ := Outcome.exists_mapM fun arg harg =>
    argumentIndex_eq hplan (hargs arg harg).1 (hargs arg harg).2
  have hlength : columnIndices.length = inputs.toList.length := hforall.length_eq.symm
  have hsome : columnIndices ≠ [] := fun h => hne (List.length_eq_zero_iff.mp (by simp [← hlength, h]))
  have hrewrite : rewriteGroupingCall plan.keys.groupingKeyToIndex plan.groupingSetsIndices
      inputs.toList = groupingLookup plan.groupingSetsIndices columnIndices := by
    rw [rewriteGroupingCall, hindices]
    rfl
  have hmeaning {Env : Type} (engine : Engine Env) (grouping : List IExpr → Env → Value) :
      (IExpr.node (.call groupingFunctionName) inputs).meaning engine grouping =
        grouping inputs.toList := by
    rw [IExpr.meaning, if_pos rfl]
  have hbits (set : List ℕ) : BitStrings.ofBits (columnIndices.map fun column =>
      decide (column ∉ set)) < 2 ^ columnIndices.length := by
    have hlt := BitStrings.ofBits_lt (columnIndices.map fun column => decide (column ∉ set))
    rwa [List.length_map] at hlt
  rw [hrewrite, groupingLookup, if_neg hsome, if_neg (by omega)]
  dsimp only
  split
  · -- one set has all keys
    rename_i hone
    obtain ⟨set, hset⟩ := List.length_eq_one_iff.mp hone
    refine ⟨_, rfl, rfl, fun {Env engine setNumber} lawful grouping => funext fun env => ?_⟩
    have hzero : setNumber env = 0 := by
      have := lawful.setNumber_lt env
      omega
    have hvalue : groupingValue inputs.toList (plan.keys.keysOf set) = number 0 := by
      rw [groupingValue, BitStrings.ofBits_eq_zero fun b hb => ?_]
      obtain ⟨arg, harg, rfl⟩ := List.mem_map.mp hb
      obtain ⟨set', hset', hmem⟩ := hplan.covered arg (hargs arg harg).2
      rw [hset, List.mem_singleton] at hset'
      exact decide_eq_false (not_not.mpr (hset' ▸ hmem))
    have hliteral : groupingLiteral columnIndices.length 0 = number 0 :=
      groupingLiteral_eq (by omega) (Nat.two_pow_pos _)
    rw [IExpr.meaning_lit, lawful.constant, hmeaning, hliteral, GroupByPlan.groupingOf,
      GroupByPlan.keysOfSet, hzero, hset, ← hvalue]
    rfl
  · rename_i hmany
    refine ⟨_, rfl, rfl, fun {Env engine setNumber} lawful grouping => funext fun env => ?_⟩
    have hlt := lawful.setNumber_lt env
    have hbigint := lawful.setNumber_bigint env
    have hid : (IExpr.col groupingSetIdColumn).meaning engine grouping env =
        number (setNumber env) := by
      rw [IExpr.meaning_col, lawful.setId hmany]
    have hone : (IExpr.lit (int64 1) .bigint).meaning engine grouping env = number 1 := by
      rw [IExpr.meaning_lit, lawful.constant]
      rfl
    have hindex : (IExpr.call "plus" [.col groupingSetIdColumn, .lit (int64 1) .bigint]).meaning
        engine grouping env = number (setNumber env + 1) := by
      rw [IExpr.meaning_call engine grouping (by decide)]
      exact lawful.plus _ _ env _ _ hid hone hbigint
    have hmasks : (IExpr.lit (.list (.ofList (plan.groupingSetsIndices.map fun groupingSet =>
          groupingLiteral columnIndices.length (bitmaskOf columnIndices groupingSet))))
          (.array (groupingType columnIndices.length))).meaning engine grouping env =
        .list (.ofList (plan.groupingSetsIndices.map fun groupingSet =>
          groupingLiteral columnIndices.length (bitmaskOf columnIndices groupingSet))) := by
      rw [IExpr.meaning_lit, lawful.constant]
    have hmask : groupingLiteral columnIndices.length
        (bitmaskOf columnIndices plan.groupingSetsIndices[setNumber env]) =
        groupingValue inputs.toList (plan.keysOfSet (setNumber env)) := by
      have hnat : (bitmaskOf columnIndices plan.groupingSetsIndices[setNumber env]).toNat = _ :=
        toNat_bitmaskOf (by omega)
      rw [groupingLiteral_eq (by omega) (hnat ▸ hbits _), hnat, map_absent hplan hforall,
        groupingValue, GroupByPlan.keysOfSet, List.getElem?_eq_getElem hlt, Option.getD_some]
    rw [IExpr.meaning_call engine grouping (by decide), hmeaning, GroupByPlan.groupingOf, ← hmask]
    exact lawful.elementAt _ _ env _ _ _ hmasks hindex hbigint
      (by rw [List.getElem?_map, List.getElem?_eq_getElem hlt, Option.map_some])

/-! ### Expressions and clauses -/

omit hplan in
mutual

/-- An expression without GROUPING calls stays as it is. -/
lemma rewriteGroupingMarker_noGrouping (table : Dict IExpr ℕ) (sets : List (List ℕ)) :
    (e : IExpr) → e.hasNoGrouping = true → rewriteGroupingMarker table sets e = .ok e
  | .node kind inputs, h => by
      rw [IExpr.hasNoGrouping, Bool.and_eq_true, decide_eq_true_iff] at h
      rw [rewriteGroupingMarker, if_neg h.1, rewriteGroupingMarkers_noGrouping table sets inputs h.2]
      rfl
  | .aggregate _ _ inputs _ _, h => by
      simp only [IExpr.hasNoGrouping, Bool.and_eq_true] at h
      rw [rewriteGroupingMarker, rewriteGroupingMarkers_noGrouping table sets inputs h.1.1]
      rfl
  | .window _ inputs partitionKeys orderByKeys frameValues, h => by
      simp only [IExpr.hasNoGrouping, Bool.and_eq_true] at h
      rw [rewriteGroupingMarker, rewriteGroupingMarkers_noGrouping table sets inputs h.1.1.1,
        rewriteGroupingMarkers_noGrouping table sets partitionKeys h.1.1.2,
        rewriteGroupingMarkers_noGrouping table sets orderByKeys h.1.2,
        rewriteGroupingMarkers_noGrouping table sets frameValues h.2]
      rfl

lemma rewriteGroupingMarkers_noGrouping (table : Dict IExpr ℕ) (sets : List (List ℕ)) :
    (es : IExprs) → es.haveNoGrouping = true → rewriteGroupingMarkers table sets es = .ok es
  | .nil, _ => by
      rw [rewriteGroupingMarkers]
      rfl
  | .cons head tail, h => by
      rw [IExprs.haveNoGrouping, Bool.and_eq_true] at h
      rw [rewriteGroupingMarkers, rewriteGroupingMarker_noGrouping table sets head h.1,
        rewriteGroupingMarkers_noGrouping table sets tail h.2]
      rfl

end

/-- Expressions stand for expressions with GROUPING calls. -/
def StandAll (plan : GroupByPlan) (es es' : IExprs) : Prop :=
  es'.haveNoGrouping = true ∧ ∀ {Env : Type} {engine : Engine Env} {setNumber : Env → ℕ},
    LawfulEngine engine plan.groupingSetsIndices.length setNumber →
      ∀ grouping, es'.meanings engine grouping = es.meanings engine (plan.groupingOf setNumber)

omit hplan

mutual

/-- An expression with its GROUPING calls replaced computes what it did with their values. -/
theorem rewriteGroupingMarker_spec (hplan : plan.WellFormed) : (e : IExpr) → e.GroupingsOver plan.keys.groupingKeys →
    ∃ e', rewriteGroupingMarker plan.keys.groupingKeyToIndex plan.groupingSetsIndices e = .ok e' ∧
      Stands plan e e'
  | .node kind inputs, h => by
      rw [IExpr.GroupingsOver] at h
      rw [rewriteGroupingMarker]
      split at h
      · rename_i hkind
        rw [if_pos hkind, hkind]
        exact rewriteGroupingCall_spec hplan h.1 h.2.1 h.2.2
      · rename_i hkind
        obtain ⟨inputs', hinputs, hno, hsame⟩ := rewriteGroupingMarkers_spec hplan inputs h
        rw [if_neg hkind, hinputs]
        refine ⟨_, rfl, ?_, fun lawful grouping => ?_⟩
        · rw [IExpr.hasNoGrouping, hno, decide_eq_true hkind]
          rfl
        · rw [IExpr.meaning, IExpr.meaning, if_neg hkind, if_neg hkind, hsame lawful]
  | .aggregate name distinct inputs filter orderBy, h => by
      obtain ⟨hinputs, hfilter, horder⟩ := h
      have hno : (IExpr.aggregate name distinct inputs filter orderBy).hasNoGrouping = true := by
        simp [IExpr.hasNoGrouping, hinputs, hfilter, horder]
      exact ⟨_, rewriteGroupingMarker_noGrouping _ _ _ hno, hno, fun _ grouping =>
        IExpr.meaning_congr _ _ _ _ hno⟩
  | .window spec inputs partitionKeys orderByKeys frameValues, h => by
      obtain ⟨hinputs, hpartition, horder, hframe⟩ := h
      obtain ⟨i, hi, hno, hsame⟩ := rewriteGroupingMarkers_spec hplan inputs hinputs
      obtain ⟨p, hp, hnoP, hsameP⟩ := rewriteGroupingMarkers_spec hplan partitionKeys hpartition
      obtain ⟨o, ho, hnoO, hsameO⟩ := rewriteGroupingMarkers_spec hplan orderByKeys horder
      obtain ⟨f, hf, hnoF, hsameF⟩ := rewriteGroupingMarkers_spec hplan frameValues hframe
      rw [rewriteGroupingMarker, hi, hp, ho, hf]
      refine ⟨_, rfl, ?_, fun lawful grouping => ?_⟩
      · simp [IExpr.hasNoGrouping, hno, hnoP, hnoO, hnoF]
      · rw [IExpr.meaning, IExpr.meaning, hsame lawful, hsameP lawful, hsameO lawful,
          hsameF lawful]

theorem rewriteGroupingMarkers_spec (hplan : plan.WellFormed) : (es : IExprs) →
    es.GroupingsOver plan.keys.groupingKeys →
    ∃ es', rewriteGroupingMarkers plan.keys.groupingKeyToIndex plan.groupingSetsIndices es =
      .ok es' ∧ StandAll plan es es'
  | .nil, _ => by
      rw [rewriteGroupingMarkers]
      exact ⟨_, rfl, rfl, fun _ _ => by rw [IExprs.meanings, IExprs.meanings]⟩
  | .cons head tail, h => by
      obtain ⟨head', hhead, hno, hsame⟩ := rewriteGroupingMarker_spec hplan head h.1
      obtain ⟨tail', htail, hno', hsame'⟩ := rewriteGroupingMarkers_spec hplan tail h.2
      rw [rewriteGroupingMarkers, hhead, htail]
      refine ⟨_, rfl, ?_, fun lawful grouping => ?_⟩
      · rw [IExprs.haveNoGrouping, hno, hno']
        rfl
      · rw [IExprs.meanings, IExprs.meanings, hsame lawful, hsame' lawful]

end

mutual

/-- Aggregates without GROUPING calls are accepted. -/
lemma rejectGroupingInAggregates_noGrouping : (e : IExpr) → e.hasNoGrouping = true →
    rejectGroupingInAggregates e = .ok ()
  | .node kind inputs, h => by
      rw [IExpr.hasNoGrouping, Bool.and_eq_true, decide_eq_true_iff] at h
      rw [rejectGroupingInAggregates, if_neg h.1, rejectGroupingInAll_noGrouping inputs h.2]
  | .aggregate _ _ inputs _ _, h => by
      simp only [IExpr.hasNoGrouping, Bool.and_eq_true] at h
      rw [rejectGroupingInAggregates, rejectGroupingInAll_noGrouping inputs h.1.1]
  | .window _ inputs _ _ _, h => by
      simp only [IExpr.hasNoGrouping, Bool.and_eq_true] at h
      rw [rejectGroupingInAggregates, rejectGroupingInAll_noGrouping inputs h.1.1.1]

lemma rejectGroupingInAll_noGrouping : (es : IExprs) → es.haveNoGrouping = true →
    rejectGroupingInAll es = .ok ()
  | .nil, _ => rfl
  | .cons head tail, h => by
      rw [IExprs.haveNoGrouping, Bool.and_eq_true] at h
      rw [rejectGroupingInAll, rejectGroupingInAggregates_noGrouping head h.1]
      exact rejectGroupingInAll_noGrouping tail h.2

end

/-- The GROUPING calls of clauses are over one to 63 grouping columns, and none is in an
aggregate. -/
structure GroupingsOver (clauses : Clauses) (groupingKeys : List IExpr) : Prop where
  projections : ∀ e ∈ clauses.projections, e.GroupingsOver groupingKeys
  windowDefinitions : ∀ e ∈ clauses.windowDefinitions, e.GroupingsOver groupingKeys
  filter : ∀ e, clauses.filter = some e → e.GroupingsOver groupingKeys
  sortingKeys : ∀ e ∈ clauses.sortingKeys, e.GroupingsOver groupingKeys
  aggregates : ∀ e ∈ clauses.aggregates, e.hasNoGrouping = true

/-- The expressions of clauses stand for those of clauses with GROUPING calls. -/
structure ClausesStand (plan : GroupByPlan) (clauses clauses' : Clauses) : Prop where
  projections : List.Forall₂ (Stands plan) clauses.projections clauses'.projections
  windowDefinitions :
    List.Forall₂ (Stands plan) clauses.windowDefinitions clauses'.windowDefinitions
  filter : Option.Rel (Stands plan) clauses.filter clauses'.filter
  sortingKeys : List.Forall₂ (Stands plan) clauses.sortingKeys clauses'.sortingKeys

lemma forM_reject {aggregates : List IExpr} (h : ∀ e ∈ aggregates, e.hasNoGrouping = true) :
    aggregates.forM rejectGroupingInAggregates = .ok () := by
  induction aggregates with
  | nil => rfl
  | cons e aggregates ih =>
    rw [List.forall_mem_cons] at h
    change (rejectGroupingInAggregates e >>= fun _ =>
      aggregates.forM rejectGroupingInAggregates) = _
    rw [rejectGroupingInAggregates_noGrouping e h.1]
    exact ih h.2

/-- In every clause, the GROUPING calls are replaced. -/
theorem resolveGroupingCalls_spec (hplan : plan.WellFormed) {clauses : Clauses}
    (h : GroupingsOver clauses plan.keys.groupingKeys) :
    ∃ clauses', resolveGroupingCalls plan.keys.groupingKeyToIndex plan.groupingSetsIndices
        clauses = .ok clauses' ∧ ClausesStand plan clauses clauses' := by
  have hrewrite {e : IExpr} (he : e.GroupingsOver plan.keys.groupingKeys) :=
    rewriteGroupingMarker_spec hplan e he
  obtain ⟨projections, hprojections, hp⟩ :=
    Outcome.exists_mapM fun e he => hrewrite (h.projections e he)
  obtain ⟨windows, hwindows, hw⟩ :=
    Outcome.exists_mapM fun e he => hrewrite (h.windowDefinitions e he)
  obtain ⟨keys, hkeys, hk⟩ := Outcome.exists_mapM fun e he => hrewrite (h.sortingKeys e he)
  have hfilter : ∃ filter, clauses.filter.mapM (rewriteGroupingMarker plan.keys.groupingKeyToIndex
      plan.groupingSetsIndices) = .ok filter ∧ Option.Rel (Stands plan) clauses.filter filter := by
    cases hsome : clauses.filter with
    | none => exact ⟨none, rfl, .none⟩
    | some e =>
      obtain ⟨e', he', hstands⟩ := hrewrite (h.filter e hsome)
      refine ⟨some e', ?_, .some hstands⟩
      change (rewriteGroupingMarker _ _ e).map some = _
      rw [he']
      rfl
  obtain ⟨filter, hfilter, hf⟩ := hfilter
  have hresolve : resolveGroupingCalls plan.keys.groupingKeyToIndex plan.groupingSetsIndices
      clauses = .ok ⟨projections, windows, filter, keys, clauses.aggregates⟩ := by
    rw [resolveGroupingCalls, forM_reject h.aggregates]
    change (List.mapM (m := Except String) _ clauses.projections >>= _) = _
    rw [hprojections]
    change (List.mapM (m := Except String) _ clauses.windowDefinitions >>= _) = _
    rw [hwindows]
    change (Option.mapM (m := Except String) _ clauses.filter >>= _) = _
    rw [hfilter]
    change (List.mapM (m := Except String) _ clauses.sortingKeys >>= _) = _
    rw [hkeys]
    rfl
  exact ⟨_, hresolve, hp, hw, hf, hk⟩

/-! ### The plan -/

/-- A plan has the grouping sets: its keys are their expressions, each once; its sets hold each of
their keys once, by its index; and they are the grouping sets in order or, with DISTINCT, one for
each distinct set of keys, at its first position. -/
structure GroupByPlan.Expands (plan : GroupByPlan) (distinct : Bool) (sets : List (List IExpr)) :
    Prop where
  keys : plan.keys.WellFormed
  keys_eq : plan.keys.groupingKeys = sets.flatten.eraseDups
  nodup : ∀ set ∈ plan.groupingSetsIndices, set.Nodup
  lt_length : ∀ set ∈ plan.groupingSetsIndices, ∀ i ∈ set, i < plan.keys.groupingKeys.length
  sets_eq : distinct = false →
    plan.groupingSetsIndices.map plan.keys.keysOf = sets.map List.eraseDups
  distinct_eq : distinct = true →
    plan.groupingSetsIndices.map (fun set => (plan.keys.keysOf set).toFinset) =
      (sets.map List.toFinset).eraseDups

lemma GroupByPlan.Expands.wellFormed {distinct : Bool} {sets : List (List IExpr)}
    (h : plan.Expands distinct sets) : plan.WellFormed where
  keys := h.keys
  nodup := h.nodup
  lt_length := h.lt_length
  covered e he := by
    rw [h.keys_eq, List.mem_eraseDups] at he
    obtain ⟨set, hset, he⟩ := List.mem_flatten.mp he
    cases hdistinct : distinct with
    | false =>
      have hmem : set.eraseDups ∈ sets.map List.eraseDups := List.mem_map_of_mem hset
      rw [← h.sets_eq hdistinct] at hmem
      obtain ⟨indices, hindices, hsame⟩ := List.mem_map.mp hmem
      exact ⟨indices, hindices, hsame ▸ List.mem_eraseDups.mpr he⟩
    | true =>
      have hmem : set.toFinset ∈ (sets.map List.toFinset).eraseDups :=
        List.mem_eraseDups.mpr (List.mem_map_of_mem hset)
      rw [← h.distinct_eq hdistinct] at hmem
      obtain ⟨indices, hindices, hsame⟩ := List.mem_map.mp hmem
      rw [← List.mem_toFinset, ← hsame, List.mem_toFinset] at he
      exact ⟨indices, hindices, he⟩

/-- What the planner makes of the grouping sets. -/
def planOf (distinct : Bool) (sets : List (List IExpr)) : GroupByPlan :=
  ⟨(deduplicateGroupingKeys ⟨[], ∅⟩ sets).1,
    if distinct then deduplicateGroupingSets (deduplicateGroupingKeys ⟨[], ∅⟩ sets).2
    else (deduplicateGroupingKeys ⟨[], ∅⟩ sets).2⟩

theorem planOf_expands (distinct : Bool) (sets : List (List IExpr)) :
    (planOf distinct sets).Expands distinct sets := by
  have hempty : Keys.WellFormed ⟨[], ∅⟩ := ⟨.nil, by simp⟩
  obtain ⟨hwell, -, hindices⟩ := deduplicateGroupingKeys_spec sets hempty
  have hkeys := groupingKeys_deduplicateGroupingKeys sets hempty List.eraseDups_nil.symm
  cases distinct with
  | false =>
    refine ⟨hwell, hkeys, fun set hset => ?_, fun set hset i hi => ?_, fun _ => ?_, nofun⟩
    · obtain ⟨exprs, -, hindex⟩ := Outcome.exists_of_forall₂ hindices hset
      exact hindex.nodup hwell.nodup (FirstOccurrences.nodup_eraseDups exprs)
    · obtain ⟨exprs, -, hindex⟩ := Outcome.exists_of_forall₂ hindices hset
      exact hindex.lt_length hi
    · rw [← List.forall₂_eq_eq_eq, List.forall₂_map_left_iff, List.forall₂_map_right_iff]
      exact hindices.imp fun set exprs hindex => hindex.keysOf_eq
  | true =>
    obtain ⟨hsets, hdistinct⟩ := deduplicateGroupingSets_spec hwell hindices
    exact ⟨hwell, hkeys, fun set hset => (hsets set hset).1, fun set hset => (hsets set hset).2,
      nofun, fun _ => hdistinct⟩

section plan

variable {Expression : Type} {planner : ExpressionPlanner Expression} {selectExprs : List IExpr}

/-- The grouping sets a clause stands for: the product of its elements' expansions. A position that
is not in the SELECT list, and a CUBE of more than 30 expressions, are errors. -/
def Means (planner : ExpressionPlanner Expression) (selectExprs : List IExpr)
    (groupBy : GroupBy Expression) (sets : List (List IExpr)) : Prop :=
  ∃ resolved, groupBy.groupingElements.mapM (resolveElement planner selectExprs) = .ok resolved ∧
    (∀ element ∈ resolved, element.Supported) ∧
    sets = product (resolved.map GroupingElement.expansion)

lemma planGroupingSets_eq_ok {groupBy : GroupBy Expression} :
    planGroupingSets planner selectExprs groupBy = .ok plan ↔
      ∃ sets, Means planner selectExprs groupBy sets ∧ plan = planOf groupBy.distinct sets := by
  rw [planGroupingSets, Outcome.bind_eq_ok]
  refine exists_congr fun sets => ?_
  rw [expandGroupingSets_eq_ok groupBy.groupingElements_ne, Means]
  refine and_congr_right fun _ => ?_
  change Except.ok (planOf groupBy.distinct sets) = Except.ok plan ↔ _
  rw [Except.ok.injEq, eq_comm]

/-- A GROUP BY clause is planned with the grouping sets it stands for, the product of its elements'
expansions, each set holding each of its keys once and, with DISTINCT, one set for each distinct set
of keys; and in every clause above the aggregation a GROUPING call over at most 63 grouping columns
computes, for a row of a set, the number whose bits are 1 for the arguments absent from the set. -/
theorem plan_spec (planner : ExpressionPlanner Expression) (selectExprs : List IExpr)
    (groupBy : GroupBy Expression) (clauses : Clauses) :
    (∀ plan clauses', GroupByPlanner.plan planner selectExprs groupBy clauses = .ok (plan, clauses') →
      ∃ sets, Means planner selectExprs groupBy sets ∧ plan.Expands groupBy.distinct sets) ∧
    ∀ sets, Means planner selectExprs groupBy sets → GroupingsOver clauses sets.flatten →
      ∃ plan clauses', GroupByPlanner.plan planner selectExprs groupBy clauses =
          .ok (plan, clauses') ∧
        plan.Expands groupBy.distinct sets ∧ ClausesStand plan clauses clauses' := by
  constructor
  · intro plan clauses' hplan
    obtain ⟨plan', hplan', hrest⟩ := Outcome.bind_eq_ok.mp hplan
    obtain ⟨clauses'', -, hsame⟩ := Outcome.bind_eq_ok.mp hrest
    obtain ⟨rfl, -⟩ := Prod.mk.inj (Except.ok.inj hsame)
    obtain ⟨sets, hmeans, rfl⟩ := planGroupingSets_eq_ok.mp hplan'
    exact ⟨sets, hmeans, planOf_expands ..⟩
  · intro sets hmeans hover
    have hexpands := planOf_expands groupBy.distinct sets
    have hkeys : sets.flatten ⊆ (planOf groupBy.distinct sets).keys.groupingKeys := by
      rw [hexpands.keys_eq]
      exact fun e he => List.mem_eraseDups.mpr he
    obtain ⟨clauses', hclauses, hstand⟩ := resolveGroupingCalls_spec hexpands.wellFormed
      { projections := fun e he => (hover.projections e he).mono hkeys
        windowDefinitions := fun e he => (hover.windowDefinitions e he).mono hkeys
        filter := fun e he => (hover.filter e he).mono hkeys
        sortingKeys := fun e he => (hover.sortingKeys e he).mono hkeys
        aggregates := hover.aggregates }
    refine ⟨_, clauses', ?_, hexpands, hstand⟩
    rw [GroupByPlanner.plan, planGroupingSets_eq_ok.mpr ⟨sets, hmeans, rfl⟩]
    change (resolveGroupingCalls _ _ _ >>= _) = _
    rw [hclauses]
    rfl

end plan

/-! ### A ROLLUP -/

namespace Rollup

/-- A planner whose expressions are translated already. -/
def planner : ExpressionPlanner IExpr where
  asSelectPosition _ := none
  toExpr := .ok
  expandColumns _ := .ok []

/-- An engine that sees a row by the number of its set. -/
def engine (numSets : ℕ) : Engine (Fin numSets) where
  node kind inputs env :=
    match kind, inputs with
    | .fieldAccess name, _ => if name = groupingSetIdColumn then number env else .null
    | .constant value _, _ => value
    | .call "plus", [f, g] =>
        match f env, g env with
        | .integral a, .integral b => number (a.1 + b.1).toNat
        | _, _ => .null
    | .call "element_at", [f, g] =>
        match f env, g env with
        | .list elements, .integral i => (elements.toList[i.1.toNat - 1]?).getD .null
        | _, _ => .null
    | _, _ => .null
  aggregate _ _ _ _ _ _ := .null
  window _ _ _ _ _ _ := .null

lemma engine_lawful {numSets : ℕ} (h : numSets < 2 ^ 63) :
    LawfulEngine (engine numSets) numSets Fin.val where
  setNumber_lt env := env.isLt
  setNumber_bigint env := by omega
  setId _ _ := by simp [engine]
  constant _ _ _ := rfl
  plus f g env a b hf hg hsum := by
    have ha : (a : ℤ) ≤ 2 ^ 63 - 1 := by omega
    have hb : (b : ℤ) ≤ 2 ^ 63 - 1 := by omega
    rw [number, dif_pos ha] at hf
    rw [number, dif_pos hb] at hg
    simp only [engine, hf, hg]
    congr 1
  elementAt f g env elements i value hf hg hi hvalue := by
    have hi' : ((i + 1 : ℕ) : ℤ) ≤ 2 ^ 63 - 1 := by omega
    rw [number, dif_pos hi'] at hg
    simp only [engine, hf, hg, Values.toList_ofList, Int.toNat_natCast, Nat.add_sub_cancel, hvalue,
      Option.getD_some]

/-- `SELECT GROUPING(a, b) ... GROUP BY ROLLUP (a, b)`. -/
def clauses : Clauses where
  projections := [.call groupingFunctionName [.col "a", .col "b"]]
  windowDefinitions := []
  filter := none
  sortingKeys := []
  aggregates := []

def groupBy : GroupBy IExpr :=
  ⟨false, [.rollup [IExpr.col "a", IExpr.col "b"]], List.cons_ne_nil _ _⟩

/-- A ROLLUP of two columns has three sets, and its GROUPING call reads them. -/
theorem rollup_planned : ∃ plan clauses',
    GroupByPlanner.plan planner [] groupBy clauses = .ok (plan, clauses') ∧
      plan.Expands false [[.col "a", .col "b"], [.col "a"], []] ∧
      ClausesStand plan clauses clauses' :=
  (plan_spec planner [] groupBy clauses).2 _
    ⟨[.rollup [IExpr.col "a", IExpr.col "b"]], rfl, by simp [GroupingElement.Supported], rfl⟩
    { projections := by
        simp [clauses, IExpr.call, IExpr.col, IExpr.GroupingsOver, IExprs.ofList, IExprs.toList,
          IExpr.isColumn]
      windowDefinitions := nofun
      filter := nofun
      sortingKeys := nofun
      aggregates := nofun }

example : groupingValue [.col "a", .col "b"] [.col "a"] = number 1 := rfl

end Rollup

end GroupByPlanner

end Verax.Grouping
