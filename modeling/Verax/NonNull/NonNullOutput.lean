import Mathlib.Data.List.Zip
import Verax.NonNull.Plan

/-!
# Columns that are never NULL

`NonNullOutput.get` derives which output columns of a node are never NULL. The cache of the source
keeps what the derivation finds for a node, so the derivation is a function of the node here.

* `Operator.exists_agrees`: a row an operator outputs is an input row, but for the columns it adds.
* `notMem_get_of_mem_groupingColumns`: the keys of a `GroupId` are not among the columns found.
* `noNulls_get`: no row a node may output has NULL in a column found.
-/

namespace Verax.NonNull

open QueryGraph Lib Lib.PossibleBags Lib.Representatives

variable {V : Type}

/-! ### The derivation -/

namespace NonNullOutput

/-- Source: `NonNullOutput.cpp` `NonNullOutput::propagate`. -/
def propagate (source : Finset Column) (outputColumns : List Column) : Finset Column :=
  (outputColumns.filter (· ∈ source)).toFinset

/-- The columns that the strict ones of some keys read. -/
def equiColumns (keys : List (Expr V)) : Finset Column :=
  Expr.columnsAll (keys.filter fun key => !key.containsNonDefaultNullBehavior)

/-- The outputs of expressions known not to be NULL. -/
def ofExprs (nonNull : Finset Column) (exprs : List (Expr V)) (outputColumns : List Column) :
    Finset Column :=
  (((exprs.zip outputColumns).filter fun p => isKnownNonNull nonNull p.1).map Prod.snd).toFinset

/-- The outputs of a union that every leg supplies with a column that is never NULL. -/
def ofLegs (nonNulls : List (Finset Column)) (legColumns : List (List Column))
    (outputColumns : List Column) : Finset Column :=
  ((outputColumns.zipIdx.filter fun output => (nonNulls.zip legColumns).all fun leg =>
    leg.2[output.2]?.any (· ∈ leg.1)).map Prod.fst).toFinset

/-- The columns of the sides a join preserves, and those its keys read if NULL matches nothing. -/
def ofJoin (leftNonNull rightNonNull : Finset Column) (key : JoinKey V) : Finset Column :=
  (if key.joinType.preservedSides.left then propagate leftNonNull key.outputColumns else ∅) ∪
  (if key.joinType.preservedSides.right then propagate rightNonNull key.outputColumns else ∅) ∪
  if key.joinType = .inner ∧ key.nullAsValue = false then
    propagate (equiColumns key.leftKeys ∪ equiColumns key.rightKeys) key.outputColumns
  else ∅

mutual

/-- Source: `NonNullOutput.cpp` `NonNullOutput::get`. -/
def get : Node V → Finset Column
  | .project input exprs outputColumns => ofExprs (get input) exprs outputColumns
  | .aggregate input key => ofExprs (get input) key.groupingKeys key.outputColumns
  | .unionAll inputs legColumns outputColumns => ofLegs (getAll inputs) legColumns outputColumns
  | .join left right key => ofJoin (get left) (get right) key
  | .operator op input => propagate (get input) (op.outputColumns input.outputColumns)
  | .other _ => ∅

/-- The columns of some nodes that are never NULL. -/
def getAll : List (Node V) → List (Finset Column)
  | [] => []
  | input :: inputs => get input :: getAll inputs

end

@[simp] lemma mem_propagate {source : Finset Column} {outputColumns : List Column} {c : Column} :
    c ∈ propagate source outputColumns ↔ c ∈ outputColumns ∧ c ∈ source := by
  simp [propagate]

lemma mem_equiColumns {keys : List (Expr V)} {c : Column} : c ∈ equiColumns keys ↔
    ∃ key ∈ keys, key.containsNonDefaultNullBehavior = false ∧ c ∈ key.columns := by
  simp [equiColumns, Expr.mem_columnsAll, and_assoc]

/-- A column of a join that is found is one of a preserved side, or a strict key reads it. -/
lemma mem_ofJoin {leftNonNull rightNonNull : Finset Column} {key : JoinKey V} {c : Column}
    (h : c ∈ ofJoin leftNonNull rightNonNull key) : c ∈ key.outputColumns ∧
      (key.joinType.preservedSides.left = true ∧ c ∈ leftNonNull ∨
        key.joinType.preservedSides.right = true ∧ c ∈ rightNonNull ∨
        key.joinType = .inner ∧ key.nullAsValue = false ∧
          (c ∈ equiColumns key.leftKeys ∨ c ∈ equiColumns key.rightKeys)) := by
  rw [ofJoin, Finset.mem_union, Finset.mem_union] at h
  rcases h with (h | h) | h <;> split at h
  · exact ⟨(mem_propagate.mp h).1, .inl ⟨‹_›, (mem_propagate.mp h).2⟩⟩
  · cases Finset.notMem_empty c h
  · exact ⟨(mem_propagate.mp h).1, .inr (.inl ⟨‹_›, (mem_propagate.mp h).2⟩)⟩
  · cases Finset.notMem_empty c h
  · next hinner =>
      obtain ⟨hc, hkeys⟩ := mem_propagate.mp h
      exact ⟨hc, .inr (.inr ⟨hinner.1, hinner.2, Finset.mem_union.mp hkeys⟩)⟩
  · cases Finset.notMem_empty c h

lemma mem_ofExprs {nonNull : Finset Column} {exprs : List (Expr V)} {outputColumns : List Column}
    {c : Column} : c ∈ ofExprs nonNull exprs outputColumns ↔
      ∃ e, (e, c) ∈ exprs.zip outputColumns ∧ isKnownNonNull nonNull e = true := by
  simp [ofExprs]

end NonNullOutput

/-! ### Rows with values for some columns -/

lemma extend_of_notMem {row : Row V} {columns : List Column} {values : List (Option V)}
    {c : Column} (h : c ∉ columns) : row.extend columns values c = row c := if_neg h

lemma lookup_of_mem_zip {c : Column} {v : Option V} :
    ∀ {columns : List Column} {values : List (Option V)}, columns.Nodup →
      (c, v) ∈ columns.zip values → (columns.zip values).lookup c = some v
  | [], _, _, h => by simp at h
  | d :: columns, [], _, h => by simp at h
  | d :: columns, w :: values, hnodup, h => by
      rw [List.nodup_cons] at hnodup
      rw [List.zip_cons_cons, List.lookup_cons]
      rcases List.mem_cons.mp h with heq | hrest
      · cases heq
        simp
      · have hne : c ≠ d := by
          rintro rfl
          exact hnodup.1 (List.of_mem_zip hrest).1
        rw [beq_eq_false_iff_ne.mpr hne]
        exact lookup_of_mem_zip hnodup.2 hrest

lemma extend_of_mem {row : Row V} {c : Column} {v : Option V} {columns : List Column}
    {values : List (Option V)} (hnodup : columns.Nodup) (h : (c, v) ∈ columns.zip values) :
    row.extend columns values c = v := by
  rw [Row.extend, if_pos (List.of_mem_zip h).1, lookup_of_mem_zip hnodup h]
  rfl

/-- Each output column stands for one expression. -/
lemma eq_of_mem_zip {α : Type} {a b : α} {c : Column} : ∀ {l : List α} {columns : List Column},
    columns.Nodup → (a, c) ∈ l.zip columns → (b, c) ∈ l.zip columns → a = b
  | [], _, _, h, _ => by simp at h
  | _ :: _, [], _, h, _ => by simp at h
  | x :: l, d :: columns, hnodup, ha, hb => by
      rw [List.nodup_cons] at hnodup
      rw [List.zip_cons_cons, List.mem_cons, Prod.mk.injEq] at ha hb
      rcases ha with ⟨rfl, rfl⟩ | ha
      · rcases hb with ⟨rfl, -⟩ | hb
        · rfl
        · exact absurd (List.of_mem_zip hb).2 hnodup.1
      · rcases hb with ⟨-, rfl⟩ | hb
        · exact absurd (List.of_mem_zip ha).2 hnodup.1
        · exact eq_of_mem_zip hnodup.2 ha hb

/-! ### Operators -/

variable {engine : PlanEngine V}

/-- A row that is an input row but for the columns that are added. -/
def Agrees (added : List Column) (rows : Multiset (Row V)) (row' : Row V) : Prop :=
  ∃ row ∈ rows, ∀ c ∉ added, row' c = row c

lemma agrees_of_mem {added : List Column} {rows : Multiset (Row V)} {row : Row V} (h : row ∈ rows) :
    Agrees added rows row := ⟨row, h, fun _ _ => rfl⟩

lemma agrees_extend {added : List Column} {values : List (Option V)} {rows : Multiset (Row V)}
    {row : Row V} (h : row ∈ rows) : Agrees added rows (row.extend added values) :=
  ⟨row, h, fun _ => extend_of_notMem⟩

/-- **A row that an operator outputs is an input row, but for the columns it adds.** -/
lemma Operator.exists_agrees {op : Operator V} {rows out : Multiset (Row V)}
    (hout : op.Outputs engine rows out) {row' : Row V} (hrow : row' ∈ out) :
    Agrees op.added rows row' := by
  cases op with
  | filter predicates =>
      obtain ⟨row, hmem, o, ⟨tuple, -, rfl⟩, ho⟩ := exists_of_mem_each hout hrow
      split at ho
      · rw [Multiset.mem_singleton.mp ho]
        exact agrees_of_mem hmem
      · cases Multiset.notMem_zero _ ho
  | limit offset count =>
      obtain ⟨l, rfl, rfl⟩ := hout
      exact agrees_of_mem (List.mem_of_mem_drop (List.mem_of_mem_take hrow))
  | sort orderKeys =>
      rw [Operator.Outputs] at hout
      exact agrees_of_mem (hout ▸ hrow)
  | topN orderKeys offset count =>
      obtain ⟨l, rfl, -, rfl⟩ := hout
      exact agrees_of_mem (List.mem_of_mem_drop (List.mem_of_mem_take hrow))
  | groupId key =>
      obtain ⟨row, hmem, o, ⟨tuple, -, rfl⟩, ho⟩ := exists_of_mem_each hout hrow
      obtain ⟨i, hi, rfl⟩ := List.mem_mapIdx.mp (Multiset.mem_coe.mp ho)
      exact agrees_extend hmem
  | markDistinct markers distinctKeys masks =>
      obtain ⟨l, rfl, -, rfl⟩ := hout
      obtain ⟨seen, p, hp, rfl⟩ := exists_of_mem_mapSeen (Multiset.mem_coe.mp hrow)
      exact agrees_extend (List.mem_map_of_mem hp)
  | unnest key =>
      obtain ⟨row, hmem, o, ⟨tuple, -, rfl⟩, ho⟩ := exists_of_mem_each hout hrow
      split at ho
      · split at ho
        · rw [Multiset.mem_singleton.mp ho]
          exact agrees_extend hmem
        · cases Multiset.notMem_zero _ ho
      · obtain ⟨position, -, rfl⟩ := List.mem_map.mp (Multiset.mem_coe.mp ho)
        exact agrees_extend hmem
  | window functions partitionKeys orderKeys results =>
      obtain ⟨l, rfl, values, -, rfl⟩ := hout
      rw [Multiset.mem_coe, ← List.map_uncurry_zip_eq_zipWith] at hrow
      obtain ⟨p, hp, rfl⟩ := List.mem_map.mp hrow
      exact agrees_extend (List.of_mem_zip hp).1
  | inference call result =>
      obtain ⟨row, hmem, o, ⟨v, -, rfl⟩, ho⟩ := exists_of_mem_each hout hrow
      rw [Multiset.mem_singleton.mp ho]
      exact agrees_extend hmem
  | rowNumber partitionKeys atMost rankColumn =>
      obtain ⟨l, rfl, ranks, -, rfl⟩ := hout
      obtain ⟨p, hp, rfl⟩ := List.mem_map.mp (Multiset.mem_coe.mp hrow)
      exact agrees_extend (List.of_mem_zip (List.mem_of_mem_filter hp)).1
  | topNRowNumber rankFunction partitionKeys orderKeys atMost rankColumn =>
      obtain ⟨l, rfl, ranks, -, rfl⟩ := hout
      obtain ⟨p, hp, rfl⟩ := List.mem_map.mp (Multiset.mem_coe.mp hrow)
      exact agrees_extend (List.of_mem_zip (List.mem_of_mem_filter hp)).1
  | assignUniqueId idColumn =>
      obtain ⟨l, ids, rfl, -, -, rfl⟩ := hout
      rw [Multiset.mem_coe, ← List.map_uncurry_zip_eq_zipWith] at hrow
      obtain ⟨p, hp, rfl⟩ := List.mem_map.mp hrow
      exact agrees_extend (List.of_mem_zip hp).1
  | enforceDistinct distinctKeys =>
      obtain ⟨rfl, -⟩ := hout
      exact agrees_of_mem hrow
  | exchange partitionKeys =>
      rw [Operator.Outputs] at hout
      exact agrees_of_mem (hout ▸ hrow)

/-! ### The columns found -/

namespace NonNullOutput

/-- The columns found are output columns. -/
lemma mem_outputColumns_of_mem_get : ∀ {node : Node V} {c : Column}, c ∈ get node →
    c ∈ node.outputColumns
  | .project _ _ _, c, h => by
      rw [get, mem_ofExprs] at h
      obtain ⟨e, he, -⟩ := h
      exact (List.of_mem_zip he).2
  | .aggregate _ _, c, h => by
      rw [get, mem_ofExprs] at h
      obtain ⟨e, he, -⟩ := h
      exact (List.of_mem_zip he).2
  | .unionAll _ _ outputColumns, c, h => by
      rw [get, ofLegs, List.mem_toFinset, List.mem_map] at h
      obtain ⟨p, hp, rfl⟩ := h
      exact List.fst_mem_of_mem_zipIdx (List.mem_of_mem_filter hp)
  | .join _ _ _, _, h => (mem_ofJoin h).1
  | .operator _ _, c, h => (mem_propagate.mp h).1
  | .other _, c, h => by cases Finset.notMem_empty c h

/-- The keys that a `GroupId` may set to NULL are not among the columns found. -/
lemma notMem_get_of_mem_groupingColumns {registry : Registry} : ∀ {node : Node V} {c : Column},
    node.WellFormed registry → c ∈ node.groupingColumns → c ∉ get node
  | .project input exprs outputColumns, c, hwell, hc, h => by
      rw [get, mem_ofExprs] at h
      obtain ⟨e, he, hknown⟩ := h
      rw [Node.groupingColumns, List.mem_map] at hc
      obtain ⟨⟨e', _⟩, hp, rfl⟩ := hc
      obtain ⟨hmem, hcolumn⟩ := List.mem_filter.mp hp
      obtain rfl := eq_of_mem_zip hwell.2.2.2 he hmem
      cases e with
      | column c' =>
          exact notMem_get_of_mem_groupingColumns hwell.1 (of_decide_eq_true hcolumn)
            (of_decide_eq_true hknown)
      | _ => cases hcolumn
  | .aggregate input key, c, hwell, hc, h => by
      rw [get, mem_ofExprs] at h
      obtain ⟨e, he, hknown⟩ := h
      rw [Node.groupingColumns, List.mem_map] at hc
      obtain ⟨⟨e', _⟩, hp, rfl⟩ := hc
      obtain ⟨hmem, hcolumn⟩ := List.mem_filter.mp hp
      obtain rfl := eq_of_mem_zip hwell.2.distinct he hmem
      cases e with
      | column c' =>
          exact notMem_get_of_mem_groupingColumns hwell.1 (of_decide_eq_true hcolumn)
            (of_decide_eq_true hknown)
      | _ => cases hcolumn
  | .unionAll _ _ _, c, _, hc, _ => by cases hc
  | .join _ _ _, c, _, hc, _ => by cases hc
  | .operator op input, c, hwell, hc, h => by
      have hget : c ∈ get input := (mem_propagate.mp h).2
      clear h
      cases op with
      | groupId key =>
          exact hwell.2 c (List.mem_append_left _ hc) (mem_outputColumns_of_mem_get hget)
      | _ => exact notMem_get_of_mem_groupingColumns hwell.1 hc hget
  | .other _, c, _, _, h => by cases Finset.notMem_empty c h

end NonNullOutput

/-! ### Rows of each kind of node -/

open NonNullOutput

variable {registry : Registry}

/-- No row of a bag has NULL in some columns. -/
def NoNulls (nonNull : Finset Column) (rows : Multiset (Row V)) : Prop :=
  ∀ row ∈ rows, ∀ c ∈ nonNull, row c ≠ none

/-- A value of an expression that is known not to be NULL. -/
lemma ne_none_of_isKnownNonNull (h : engine.Lawful registry) {nonNull : Finset Column} {row : Row V}
    (hrow : ∀ c ∈ nonNull, row c ≠ none) {e : Expr V} {v : Option V}
    (hknown : isKnownNonNull nonNull e = true) (hv : v ∈ engine.values row e) : v ≠ none :=
  Engine.isKnownNonNull_sound h hrow hknown hv

/-- The value that goes with a column, where values go with expressions. -/
lemma exists_mem_zip {R : Expr V → Option V → Prop} {es : List (Expr V)}
    {tuple : List (Option V)} (h : List.Forall₂ R es tuple) (rest : List (Option V)) :
    ∀ {columns : List Column} {e : Expr V} {c : Column}, (e, c) ∈ es.zip columns →
      ∃ v, R e v ∧ (c, v) ∈ columns.zip (tuple ++ rest) := by
  induction h with
  | nil => simp
  | @cons e' v es tuple hv _ ih =>
      intro columns e c hmem
      cases columns with
      | nil => simp at hmem
      | cons d columns =>
          rw [List.zip_cons_cons, List.mem_cons] at hmem
          rcases hmem with heq | hmem
          · cases heq
            exact ⟨v, hv, List.mem_cons_self⟩
          · obtain ⟨w, hw, hzip⟩ := ih hmem
            exact ⟨w, hw, List.mem_cons_of_mem _ hzip⟩

/-- A row whose columns are the values of expressions has no NULL where an expression is known not to
be NULL. -/
lemma extend_ne_none (h : engine.Lawful registry) {nonNull : Finset Column} {row row' : Row V}
    (hrow : ∀ c ∈ nonNull, row c ≠ none) {es : List (Expr V)} {columns : List Column}
    {tuple rest : List (Option V)} (hnodup : columns.Nodup) (htuple : engine.Tuple row es tuple)
    {c : Column} (hc : c ∈ ofExprs nonNull es columns) :
    row'.extend columns (tuple ++ rest) c ≠ none := by
  obtain ⟨e, he, hknown⟩ := mem_ofExprs.mp hc
  obtain ⟨v, hv, hzip⟩ := exists_mem_zip htuple rest he
  rw [extend_of_mem hnodup hzip]
  exact ne_none_of_isKnownNonNull h hrow hknown hv

/-- An item of a sum is an item of what goes with a part. -/
lemma exists_of_mem_sum {α β : Type} {R : α → Multiset β → Prop} {parts : List α}
    {outs : List (Multiset β)} (h : List.Forall₂ R parts outs) {b : β} (hb : b ∈ outs.sum) :
    ∃ part ∈ parts, ∃ o, R part o ∧ b ∈ o := by
  induction h with
  | nil => cases Multiset.notMem_zero b hb
  | @cons part o parts outs hpart _ ih =>
      rw [List.sum_cons] at hb
      rcases Multiset.mem_add.mp hb with hb | hb
      · exact ⟨part, List.mem_cons_self, o, hpart, hb⟩
      · obtain ⟨part', hpart', o', hR, hmem⟩ := ih hb
        exact ⟨part', List.mem_cons_of_mem part hpart', o', hR, hmem⟩

/-- A projection outputs no NULL in the columns found. -/
lemma noNulls_project (h : engine.Lawful registry) {nonNull : Finset Column}
    {exprs : List (Expr V)} {outputColumns : List Column} (hnodup : outputColumns.Nodup)
    {rows out : Multiset (Row V)} (hrows : NoNulls nonNull rows)
    (hout : Each (Node.projectStep engine exprs outputColumns) rows out) :
    NoNulls (ofExprs nonNull exprs outputColumns) out := by
  intro row' hrow' c hc
  obtain ⟨row, hmem, o, ⟨tuple, htuple, rfl⟩, ho⟩ := exists_of_mem_each hout hrow'
  rw [Multiset.mem_singleton.mp ho, ← List.append_nil tuple]
  exact extend_ne_none h (hrows row hmem) hnodup htuple hc

/-- A row for a group of no rows has no NULL in the columns found: the keys that are NULL there are
not among them. -/
lemma default_ne_none {key : AggregateKey V} {input : Node V}
    (hwell : key.WellFormed registry input) (hinput : input.WellFormed registry) {tuple rest : List (Option V)}
    (htuple : tuple ∈ key.defaults engine) {c : Column}
    (hc : c ∈ ofExprs (get input) key.groupingKeys key.outputColumns) {row : Row V} :
    row.extend key.outputColumns (tuple ++ rest) c ≠ none := by
  obtain ⟨e, he, hknown⟩ := mem_ofExprs.mp hc
  have hkey : e ∈ key.groupingKeys := (List.of_mem_zip he).1
  rw [AggregateKey.defaults, List.mem_append] at htuple
  rcases htuple with htuple | htuple
  · split at htuple
    next hnil =>
      rw [hnil] at hkey
      cases hkey
    next => cases htuple
  · obtain ⟨set, hset, rfl⟩ := List.mem_map.mp htuple
    obtain ⟨d, rfl, hd⟩ := hwell.grouping (List.ne_nil_of_mem hset) e hkey
    have hgroupId : key.groupId = some d := hd.resolve_right fun hgrouping =>
      notMem_get_of_mem_groupingColumns hinput hgrouping (of_decide_eq_true hknown)
    obtain ⟨v, hv, hzip⟩ := exists_mem_zip
      (List.forall₂_map_right_iff.mpr (List.forall₂_same.mpr fun e _ => rfl)) rest he
    rw [extend_of_mem hwell.distinct hzip, ← hv]
    simp [hgroupId]

/-- An aggregation outputs no NULL in the columns found. -/
lemma noNulls_aggregate (h : engine.Lawful registry) {key : AggregateKey V} {input : Node V}
    (hwell : key.WellFormed registry input) (hinput : input.WellFormed registry)
    {rows out : Multiset (Row V)} (hrows : NoNulls (get input) rows)
    (hout : key.Outputs engine rows out) :
    NoNulls (ofExprs (get input) key.groupingKeys key.outputColumns) out := by
  intro row' hrow' c hc
  obtain ⟨parts, rfl, htuples, -, outs, houts, rfl⟩ := hout
  obtain ⟨part, hpart, o, ⟨tuples, hchosen, hrel⟩, ho⟩ := exists_of_mem_sum houts hrow'
  obtain ⟨tuple, htuple, results, -, rfl⟩ :=
    Multiset.exists_mem_of_rel_of_mem (Multiset.rel_flip.mpr hrel) ho
  split at hchosen
  · rw [hchosen] at htuple
    exact default_ne_none hwell hinput (Multiset.mem_coe.mp htuple) hc
  · have hmem := Multiset.mem_coe.mp (Multiset.mem_of_le hchosen.1 htuple)
    obtain ⟨p, hp, rfl⟩ := List.mem_map.mp hmem
    have hflat : p ∈ parts.flatten := List.mem_flatten.mpr ⟨part, hpart, hp⟩
    exact extend_ne_none h (hrows p.1 (List.mem_map_of_mem hflat)) hwell.distinct
      (htuples p hflat) hc

section Join

variable {key : JoinKey V} {left right : List Column}

/-- An output column that is an input column is supplied by itself. -/
lemma sourceOf_eq_self (hwell : key.WellFormed registry left right) {c : Column}
    (hc : c ∈ key.outputColumns) (hinput : c ∈ left ∨ c ∈ right) : key.sourceOf c = some c := by
  have hmark : key.markColumn ≠ some c := fun hmark =>
    hinput.elim (hwell.mark c hmark).1 (hwell.mark c hmark).2
  rw [JoinKey.sourceOf, if_neg hmark]
  cases hlookup : (key.outputColumns.zip key.effectiveSourceColumns).lookup c with
  | none =>
      obtain ⟨s, hs⟩ : ∃ s, (c, s) ∈ key.outputColumns.zip key.effectiveSourceColumns := by
        have hfst : c ∈ (key.outputColumns.zip key.effectiveSourceColumns).map Prod.fst := by
          rw [List.map_fst_zip (le_of_eq hwell.aligned)]
          exact hc
        obtain ⟨⟨_, s⟩, hs, rfl⟩ := List.mem_map.mp hfst
        exact ⟨s, hs⟩
      cases bne_iff_ne.mp (List.lookup_eq_none_iff.mp hlookup _ hs) rfl
  | some s =>
      obtain ⟨l₁, l₂, hsplit, -⟩ := List.lookup_eq_some_iff.mp hlookup
      have hs : (c, s) ∈ key.outputColumns.zip key.effectiveSourceColumns := by
        rw [hsplit]
        simp
      by_contra hne
      have hfresh := hwell.sources (c, s) hs hmark fun heq => hne (congrArg some heq.symm)
      exact hinput.elim hfresh.1 hfresh.2

/-- What an output column that is an input column holds. -/
lemma outputRow_eq (hwell : key.WellFormed registry left right) {c : Column}
    (hc : c ∈ key.outputColumns) (hinput : c ∈ left ∨ c ∈ right)
    (l r : Option (JoinKey.Occurrence V)) (mark : Truth) :
    key.outputRow engine left l r mark c = JoinKey.valueAt left l r c := by
  have hmark : key.markColumn ≠ some c := fun hmark =>
    hinput.elim (hwell.mark c hmark).1 (hwell.mark c hmark).2
  rw [JoinKey.outputRow, if_neg hmark, sourceOf_eq_self hwell hc hinput]
  rfl

/-- A row whose key is not NULL has no NULL in a column that the key reads, if it is strict. -/
lemma ne_none_of_keyValues (h : engine.Lawful registry) {rows : Multiset (JoinKey.Occurrence V)}
    {e : Expr V} {compared : JoinKey.Occurrence V → Option V}
    (hvalues : JoinKey.KeyValues engine rows e compared) (hwell : e.WellFormed registry)
    (hstrict : e.containsNonDefaultNullBehavior = false) {c : Column} (hc : c ∈ e.columns)
    {a : JoinKey.Occurrence V} (ha : a ∈ rows) (hsome : (compared a).isSome = true) :
    a.2 c ≠ none := by
  intro hnull
  obtain ⟨v, hv, hcompared⟩ := hvalues a ha
  have hnone : v = none := Engine.isNull_of_mem_columns h hnull hwell hstrict hc hv
  rw [hcompared, hnone] at hsome
  cases hsome

/-- What a join compares of a key, and of the key it is paired with. -/
lemma exists_compared {α β : Type} {R : Expr V → α → Prop} {S : Expr V → β → Prop}
    {keys others : List (Expr V)} {compared : List α} {comparedOthers : List β}
    (h : List.Forall₂ R keys compared) (hothers : List.Forall₂ S others comparedOthers)
    (hlength : keys.length = others.length) {e : Expr V} (he : e ∈ keys) :
    ∃ x y, R e x ∧ (x, y) ∈ compared.zip comparedOthers := by
  induction h generalizing others comparedOthers with
  | nil => cases he
  | @cons e' x keys compared hx _ ih =>
      cases hothers with
      | nil => cases hlength
      | @cons _ y _ comparedOthers _ hrest =>
          rcases List.mem_cons.mp he with rfl | he
          · exact ⟨x, y, hx, List.mem_cons_self⟩
          · obtain ⟨x', y', hR, hzip⟩ := ih hrest (Nat.succ.inj hlength) he
            exact ⟨x', y', hR, List.mem_cons_of_mem _ hzip⟩

/-- A join outputs no NULL in the columns found. -/
lemma noNulls_join [DecidableEq V] (h : engine.Lawful registry)
    (hwell : key.WellFormed registry left right) {leftNonNull rightNonNull : Finset Column}
    (hleft : ∀ c ∈ leftNonNull, c ∈ left) (hright : ∀ c ∈ rightNonNull, c ∈ right)
    {A B out : Multiset (Row V)} (hA : NoNulls leftNonNull A) (hB : NoNulls rightNonNull B)
    (hout : key.Outputs engine left A B out) :
    NoNulls (ofJoin leftNonNull rightNonNull key) out := by
  intro row' hrow' c hc
  obtain ⟨A, B, O, leftKeys, rightKeys, filter, rfl, rfl, rfl, hleftKeys, hrightKeys, -, hO⟩ := hout
  obtain ⟨_, hmem, rfl⟩ := Multiset.mem_map.mp hrow'
  obtain ⟨l, r, mark, hmakes, rfl⟩ := JoinSpec.exists_makes hO hmem
  obtain ⟨houtput, hc⟩ := mem_ofJoin hc
  have hleftValue : ∀ a ∈ A, l = some a → c ∈ left → a.2 c ≠ none →
      key.outputRow engine left l r mark c ≠ none := by
    intro a _ hl hmem hvalue
    rw [outputRow_eq hwell houtput (.inl hmem), JoinKey.valueAt, if_pos hmem, hl]
    exact hvalue
  have hrightValue : ∀ b ∈ B, r = some b → c ∈ right → b.2 c ≠ none →
      key.outputRow engine left l r mark c ≠ none := by
    intro b _ hr hmem hvalue
    have hnot : c ∉ left := fun hleft => hwell.disjoint c hleft hmem
    rw [outputRow_eq hwell houtput (.inr hmem), JoinKey.valueAt, if_neg hnot, hr]
    exact hvalue
  rcases hc with ⟨hside, hc⟩ | ⟨hside, hc⟩ | ⟨hinner, hnull, hc⟩
  · obtain ⟨a, hl⟩ := Option.isSome_iff_exists.mp (hmakes.preservesLeft hside)
    have ha := hmakes.left a hl
    exact hleftValue a ha hl (hleft c hc) (hA a.2 (Multiset.mem_map_of_mem _ ha) c hc)
  · obtain ⟨b, hr⟩ := Option.isSome_iff_exists.mp (hmakes.preservesRight hside)
    have hb := hmakes.right b hr
    exact hrightValue b hb hr (hright c hc) (hB b.2 (Multiset.mem_map_of_mem _ hb) c hc)
  · obtain ⟨a, b, hl, hr, hon⟩ := hmakes.inner hinner
    have hsome := JoinSpec.isSome_of_on hnull hon
    rcases hc with hc | hc
    · obtain ⟨e, he, hstrict, hcolumn⟩ := mem_equiColumns.mp hc
      obtain ⟨x, y, hvalues, hzip⟩ := exists_compared hleftKeys hrightKeys hwell.keys he
      obtain ⟨hexpr, hreads⟩ := hwell.leftKeys e he
      have ha := hmakes.left a hl
      exact hleftValue a ha hl (hreads c hcolumn)
        (ne_none_of_keyValues h hvalues hexpr hstrict hcolumn ha (hsome _ hzip).1)
    · obtain ⟨e, he, hstrict, hcolumn⟩ := mem_equiColumns.mp hc
      obtain ⟨y, x, hvalues, hzip⟩ := exists_compared hrightKeys hleftKeys hwell.keys.symm he
      obtain ⟨hexpr, hreads⟩ := hwell.rightKeys e he
      have hb := hmakes.right b hr
      have hpair : (x, y) ∈ leftKeys.zip rightKeys := by
        rw [← List.zip_swap rightKeys leftKeys]
        exact List.mem_map_of_mem hzip
      exact hrightValue b hb hr (hreads c hcolumn)
        (ne_none_of_keyValues h hvalues hexpr hstrict hcolumn hb (hsome _ hpair).2)

end Join

section Union

variable {nonNulls : List (Finset Column)} {legs : List (Multiset (Row V))}

/-- A row of a union is one of a leg. -/
lemma exists_of_mem_legs (h : List.Forall₂ NoNulls nonNulls legs) {outputColumns : List Column} :
    ∀ {legColumns : List (List Column)} {row' : Row V},
      row' ∈ (List.zipWith (fun columns rows => rows.map (Node.legRow columns outputColumns))
        legColumns legs).sum →
      ∃ leg ∈ nonNulls.zip legColumns, ∃ row : Row V, (∀ c ∈ leg.1, row c ≠ none) ∧
        row' = Node.legRow leg.2 outputColumns row := by
  induction h with
  | nil =>
      intro legColumns row' hrow'
      rw [List.zipWith_nil_right] at hrow'
      cases Multiset.notMem_zero _ hrow'
  | @cons nonNull rows nonNulls legs hnonNull _ ih =>
      intro legColumns row' hrow'
      cases legColumns with
      | nil => cases Multiset.notMem_zero _ hrow'
      | cons columns legColumns =>
          rw [List.zipWith_cons_cons, List.sum_cons] at hrow'
          rcases Multiset.mem_add.mp hrow' with hrow' | hrow'
          · obtain ⟨row, hrow, rfl⟩ := Multiset.mem_map.mp hrow'
            exact ⟨_, List.mem_cons_self, row, hnonNull row hrow, rfl⟩
          · obtain ⟨leg, hleg, hrest⟩ := ih hrow'
            exact ⟨leg, List.mem_cons_of_mem _ hleg, hrest⟩

/-- A union outputs no NULL in the columns found. -/
lemma noNulls_unionAll (h : List.Forall₂ NoNulls nonNulls legs) {outputColumns : List Column}
    (hnodup : outputColumns.Nodup) {legColumns : List (List Column)} :
    NoNulls (ofLegs nonNulls legColumns outputColumns)
      (List.zipWith (fun columns rows => rows.map (Node.legRow columns outputColumns))
        legColumns legs).sum := by
  intro row' hrow' c hc
  obtain ⟨leg, hleg, row, hrow, rfl⟩ := exists_of_mem_legs h hrow'
  rw [ofLegs, List.mem_toFinset, List.mem_map] at hc
  obtain ⟨⟨c, j⟩, hp, rfl⟩ := hc
  obtain ⟨hmem, hall⟩ := List.mem_filter.mp hp
  obtain ⟨c', hc', hnonNull⟩ :=
    (Option.any_eq_true _ _).mp (List.all_eq_true.mp hall leg hleg)
  have hzip : (outputColumns.zip (leg.2.map row))[j]? = some (c, row c') :=
    List.getElem?_zip_eq_some.mpr
      ⟨List.mem_zipIdx_iff_getElem?.mp hmem, by rw [List.getElem?_map, hc']; rfl⟩
  rw [Node.legRow, extend_of_mem hnodup (List.mem_of_getElem? hzip)]
  exact hrow c' (of_decide_eq_true hnonNull)

end Union

/-! ### Every node -/

mutual

/-- No row that a node may output has NULL in a column found. -/
lemma noNulls_get [DecidableEq V] (h : engine.Lawful registry) : ∀ {node : Node V}
    {rows : Multiset (Row V)}, node.WellFormed registry → node.Outputs engine rows →
      NoNulls (get node) rows
  | .project input exprs outputColumns, rows, hwell, hout => by
      obtain ⟨inputRows, hinput, hout⟩ := hout
      exact noNulls_project h hwell.2.2.2 (noNulls_get h hwell.1 hinput) hout
  | .aggregate input key, rows, hwell, hout => by
      obtain ⟨inputRows, hinput, hout⟩ := hout
      exact noNulls_aggregate h hwell.2 hwell.1 (noNulls_get h hwell.1 hinput) hout
  | .unionAll inputs legColumns outputColumns, rows, hwell, hout => by
      obtain ⟨legs, hlegs, rfl⟩ := hout
      exact noNulls_unionAll (noNulls_getAll h hwell.1 hlegs) hwell.2.2.2
  | .join left right key, rows, hwell, hout => by
      obtain ⟨A, B, hA, hB, hout⟩ := hout
      exact noNulls_join h hwell.2.2 (fun c => mem_outputColumns_of_mem_get)
        (fun c => mem_outputColumns_of_mem_get) (noNulls_get h hwell.1 hA)
        (noNulls_get h hwell.2.1 hB) hout
  | .operator op input, rows, hwell, hout => by
      obtain ⟨inputRows, hinput, hout⟩ := hout
      intro row' hrow' c hc
      obtain ⟨row, hrow, hagrees⟩ := Operator.exists_agrees hout hrow'
      have hget : c ∈ get input := (mem_propagate.mp hc).2
      have hadded : c ∉ op.added := fun hadded =>
        hwell.2 c hadded (mem_outputColumns_of_mem_get hget)
      rw [hagrees c hadded]
      exact noNulls_get h hwell.1 hinput row hrow c hget
  | .other _, rows, _, _ => fun _ _ c hc => absurd hc (Finset.notMem_empty c)

lemma noNulls_getAll [DecidableEq V] (h : engine.Lawful registry) : ∀ {nodes : List (Node V)}
    {legs : List (Multiset (Row V))}, Node.AllWellFormed registry nodes →
      Node.AllOutput engine nodes legs → List.Forall₂ NoNulls (getAll nodes) legs
  | [], legs, _, hout => by
      rw [hout]
      exact .nil
  | node :: nodes, legs, hwell, hout => by
      obtain ⟨rows, rest, hrows, hrest, rfl⟩ := hout
      exact .cons (noNulls_get h hwell.1 hrows) (noNulls_getAll h hwell.2 hrest)

end

/-- **Columns reported never NULL are never NULL**: no row that a node may output has NULL in a
column of `NonNullOutput.get`. -/
theorem never_null_of_mem_get [DecidableEq V] {node : Node V} {rows : Multiset (Row V)}
    {row : Row V} {c : Column} (h : engine.Lawful registry) (hwell : node.WellFormed registry)
    (hout : node.Outputs engine rows) (hrow : row ∈ rows) (hc : c ∈ get node) : row c ≠ none :=
  noNulls_get h hwell hout row hrow c hc

section Example

/-- A registry of functions that all have default null behavior. -/
def strictRegistry : Registry where
  inference := fun _ => none
  function := fun _ => some ⟨true, true⟩

/-- An engine over numbers: COALESCE, and functions that are NULL if an argument is. -/
def strictEngine : PlanEngine ℕ where
  call name args := {v | if name = kCoalesce then v = args.findSome? Argument.datum
    else (∃ a ∈ args, a.IsNull) → v = none}
  field := fun _ _ => none
  key := some
  same a b := a == b
  truth v := v.map (· != 0)
  ofTruth t := t.map Bool.toNat
  integer := id
  elements := fun _ => []
  emptyOrdinality := none
  ordered := fun _ _ => True
  aggregate := fun _ _ _ => {some 0}
  window := fun _ _ _ _ => ∅
  ranks := fun _ _ _ _ => ∅

/-- COALESCE(a, 7) over any rows. -/
def coalesced : Node ℕ :=
  .project (.other [⟨0⟩]) [.call kCoalesce ⟨false, true⟩ [.column ⟨0⟩, .literal (some 7)]] [⟨1⟩]

lemma strictEngine_lawful : strictEngine.Lawful strictRegistry where
  defaultNull name args v hbits hnull hv := by
    have hname : name ≠ kCoalesce := by
      rintro rfl
      cases hbits
    rw [strictEngine, Set.mem_ofPred_eq, if_neg hname] at hv
    exact hv hnull
  coalesce args v hv := by
    rw [strictEngine, Set.mem_ofPred_eq, if_pos rfl] at hv
    exact hv

lemma coalesced_wellFormed : coalesced.WellFormed strictRegistry := by
  have hcall : (Expr.unionArgFunctions (ownFunctions strictRegistry kCoalesce)
      [Expr.column ⟨0⟩, Expr.literal (some 7)]).Subset ⟨false, true⟩ :=
    ⟨nofun, fun _ => rfl⟩
  simp [coalesced, Node.WellFormed, Expr.WellFormed, Expr.AllWellFormed, hcall]

lemma outputs_coalesced :
    coalesced.Outputs strictEngine {Row.extend (fun _ => none) [⟨1⟩] [some 7]} := by
  refine ⟨{fun _ => none}, trivial, each_singleton.mpr ⟨[some 7], ?_, rfl⟩⟩
  refine .cons ⟨some 7, [.value none, .value (some 7)], ?_, ?_, rfl⟩ .nil
  · exact Engine.mem_evaluateAll.mpr (.cons rfl (.cons rfl .nil))
  · rw [strictEngine, Set.mem_ofPred_eq, if_pos rfl]
    rfl

/-- COALESCE(NULL, 7) is not NULL. -/
theorem never_null_of_mem_get_coalesce :
    Row.extend (fun _ => none) [⟨1⟩] [some 7] (⟨1⟩ : Column) ≠ (none : Option ℕ) :=
  never_null_of_mem_get strictEngine_lawful
    coalesced_wellFormed outputs_coalesced (Multiset.mem_singleton_self _) (by decide)

end Example

end Verax.NonNull
