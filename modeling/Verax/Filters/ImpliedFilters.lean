import Verax.Filters.SimplifyFilter

/-!
# Implied filters

`ImpliedFilters.cpp`: filters on some of the columns that a condition implies. A Boolean expression
is projected onto groups of columns: an AND keeps what any operand says of a group, an OR what every
operand says of it. An IN over rows says of each field that it is one of the field's values.

* `projectLogicalExpression`, `deriveGroupedFiltersFromOr`, `deriveColumnFiltersFromRowIn`.
* `projected_implied`: a projection reads the columns of its group, is true wherever the expression
  is, and accepts the same rows where it is said to match it.
* `impliedFilters_necessary`: the same of all three.

Which functions give a new value each time is a parameter; an expression that has such a call has no
value on a row here, and the source derives nothing from it.
-/

set_option linter.unusedSectionVars false

namespace Verax.Filters

open Lib

/-! ### Combining -/

/-- One round of combining neighbours, of a sequence that is not empty.
Source: `ImpliedFilters.cpp` `combineBalanced`, the inner loop. -/
def combinePairs (combine : Expr → Expr → Expr) : Expr → List Expr → Expr × List Expr
  | a, [] => (a, [])
  | a, [b] => (combine a b, [])
  | a, b :: c :: rest =>
      (combine a b, (combinePairs combine c rest).1 :: (combinePairs combine c rest).2)

lemma length_combinePairs (combine : Expr → Expr → Expr) : ∀ (a : Expr) (rest : List Expr),
    (combinePairs combine a rest).2.length = rest.length / 2
  | _, [] => rfl
  | _, [_] => by simp [combinePairs]
  | _, _ :: c :: rest => by
    rw [combinePairs, List.length_cons, length_combinePairs combine c rest]
    simp only [List.length_cons]
    omega

/-- A balanced tree over a sequence that is not empty.
Source: `ImpliedFilters.cpp` `combineBalanced`. -/
def combineBalanced (combine : Expr → Expr → Expr) (first : Expr) (rest : List Expr) : Expr :=
  match rest with
  | [] => first
  | next :: rest =>
    combineBalanced combine (combinePairs combine first (next :: rest)).1
      (combinePairs combine first (next :: rest)).2
termination_by rest.length
decreasing_by
  rw [length_combinePairs]
  simp only [List.length_cons]
  omega

/-! ### Projecting -/

/-- What an expression says of a group, and whether that is all it says.
Source: `ImpliedFilters.cpp` `GroupedProjection`. -/
structure GroupedProjection (G : Type) where
  group : G
  filter : Expr
  matchesSource : Bool

/-- The filters collected for a group, of which there is at least one.
Source: `ImpliedFilters.cpp` `Accumulator`. -/
structure Accumulator (G : Type) where
  group : G
  first : Expr
  rest : List Expr
  numMatchedOperands : ℕ
  childrenMatchSource : Bool

variable {G : Type} [DecidableEq G]

/-- Source: `ImpliedFilters.cpp` `accumulators.push_back` with the first filter. -/
def Accumulator.ofProjection (p : GroupedProjection G) : Accumulator G :=
  ⟨p.group, p.filter, [], 1, p.matchesSource⟩

/-- Source: `ImpliedFilters.cpp` `projectLogicalExpression`, the body of the loop. -/
def Accumulator.add (acc : Accumulator G) (p : GroupedProjection G) : Accumulator G :=
  { acc with
    rest := acc.rest ++ [p.filter]
    numMatchedOperands := acc.numMatchedOperands + 1
    childrenMatchSource := acc.childrenMatchSource && p.matchesSource }

/-- Adds a projection to its group. An OR opens no group after its first operand. -/
def addProjection (opens : Bool) (accumulators : List (Accumulator G)) (p : GroupedProjection G) :
    List (Accumulator G) :=
  if p.group ∈ accumulators.map (·.group) then
    accumulators.map fun acc => if acc.group = p.group then acc.add p else acc
  else if opens then accumulators ++ [.ofProjection p]
  else accumulators

/-- The groups the operands constrain. Source: `ImpliedFilters.cpp` `projectLogicalExpression`, the
loop over the operands. -/
def accumulate (isOr : Bool) : List (List (GroupedProjection G)) → List (Accumulator G)
  | [] => []
  | operand :: operands =>
    operands.foldl (fun accumulators projections =>
        projections.foldl (addProjection (!isOr)) accumulators)
      (operand.foldl (addProjection true) [])

variable (registry : Registry)

/-- Source: `ExprFactory.cpp` `makeAnd`, `makeOr`. -/
def makeJunction (isOr : Bool) (lhs rhs : Expr) : Expr :=
  if isOr then makeOr registry lhs rhs else makeAnd registry lhs rhs

/-- What an AND or an OR of operands says of each group.
Source: `ImpliedFilters.cpp` `projectLogicalExpression`, after the operands. -/
def combineProjections (isOr : Bool) (operands : List (List (GroupedProjection G))) :
    List (GroupedProjection G) :=
  ((accumulate isOr operands).filter fun acc =>
      !(isOr && acc.numMatchedOperands != operands.length)).map fun acc =>
    { group := acc.group
      filter := combineBalanced (makeJunction registry isOr) acc.first acc.rest
      matchesSource := acc.numMatchedOperands == operands.length && acc.childrenMatchSource }

/-- Whether an expression is an AND or an OR, and which. -/
def junctionOf : Expr → Option FunctionName
  | .call .and _ _ => some .and
  | .call .or _ _ => some .or
  | _ => none

mutual

lemma sizeOf_flatten {name : FunctionName} : (e : Expr) → ∀ d ∈ flatten name e, sizeOf d ≤ sizeOf e
  | .column _, d, h => by rw [List.mem_singleton.mp h]
  | .literal _ _, d, h => by rw [List.mem_singleton.mp h]
  | .field _ _ _, d, h => by rw [List.mem_singleton.mp h]
  | .call f args type, d, h => by
    rw [flatten] at h
    split at h
    · exact (sizeOf_flattenArgs args d h).le.trans (by simp; omega)
    · rw [List.mem_singleton.mp h]

lemma sizeOf_flattenArgs {name : FunctionName} : (args : Exprs) →
    ∀ d ∈ flattenArgs name args, sizeOf d < sizeOf args
  | .nil, d, h => nomatch h
  | .cons head tail, d, h => by
    rw [flattenArgs, List.mem_append] at h
    rcases h with h | h
    · have := sizeOf_flatten head d h
      simp only [Exprs.cons.sizeOf_spec]
      omega
    · have := sizeOf_flattenArgs tail d h
      simp only [Exprs.cons.sizeOf_spec]
      omega

end

/-- The operands of an AND or an OR are smaller. -/
lemma sizeOf_operand {name : FunctionName} {e d : Expr} (he : junctionOf e = some name)
    (hd : d ∈ flatten name e) : sizeOf d < sizeOf e := by
  unfold junctionOf at he
  split at he
  · cases he
    rw [flatten, if_pos rfl] at hd
    exact (sizeOf_flattenArgs _ d hd).trans (by simp; omega)
  · cases he
    rw [flatten, if_pos rfl] at hd
    exact (sizeOf_flattenArgs _ d hd).trans (by simp; omega)
  · cases he

/-- What an expression says of each group of columns; an expression that is no AND or OR is put into
the group of its columns, if they have one.
Source: `ImpliedFilters.cpp` `projectLogicalExpression`. -/
def projectLogicalExpression (groupFor : List Column → Option G) (expression : Expr) :
    List (GroupedProjection G) :=
  match h : junctionOf expression with
  | none =>
    match groupFor expression.columns with
    | none => []
    | some group => [⟨group, expression, true⟩]
  | some name =>
    combineProjections registry (decide (name = .or)) ((flatten name expression).attach.map
      fun operand => have := sizeOf_operand h operand.2
        projectLogicalExpression groupFor operand.1)
termination_by sizeOf expression

/-! ### Deriving -/

mutual

/-- Whether an expression calls one of the functions that give a new value each time.
Source: `QueryGraph.h` `Expr::containsNonDeterministic`. -/
def containsNonDeterministic (volatile : FunctionName → Bool) : Expr → Bool
  | .column _ => false
  | .literal _ _ => false
  | .field base _ _ => containsNonDeterministic volatile base
  | .call name args _ => volatile name || anyNonDeterministic volatile args

/-- The same of one of the arguments of a call. -/
def anyNonDeterministic (volatile : FunctionName → Bool) : Exprs → Bool
  | .nil => false
  | .cons head tail => containsNonDeterministic volatile head || anyNonDeterministic volatile tail

end

variable (volatile : FunctionName → Bool)

/-- The filters an OR implies on groups of columns, the OR itself where it is on one group.
Source: `ImpliedFilters.cpp` `deriveGroupedFiltersFromOr`. -/
def deriveGroupedFiltersFromOr (groupFor : List Column → Option G) (orExpr : Expr) :
    List (G × Expr) :=
  if junctionOf orExpr ≠ some .or ∨ containsNonDeterministic volatile orExpr then []
  else (projectLogicalExpression registry groupFor orExpr).map fun projection =>
    (projection.group, if projection.matchesSource then orExpr else projection.filter)

/-- The value and the constants of an IN over an array of constants of its type.
Source: `QueryGraph.cpp` `Call::constantInList`. -/
def constantInList : Expr → Option (Expr × List Value)
  | .call .in (.cons value (.cons (.literal (.list elements) listType) .nil)) _ =>
      if listType = .array value.type then some (value, elements.toList) else none
  | _ => none

/-- A constant of an IN over rows that is no row of its fields.
Source: the `VELOX_DCHECK_EQ`s of `ImpliedFilters.cpp` `deriveColumnFiltersFromRowIn`. -/
inductive RowInFailure where
  | kind
  | fields
  deriving DecidableEq

/-- The fields of the rows that are not NULL. -/
def rowFields (numFields : ℕ) : List Value → Except RowInFailure (List (List Value))
  | [] => .ok []
  | .null :: rows => rowFields numFields rows
  | .list fields :: rows =>
      if fields.toList.length = numFields then
        (rowFields numFields rows).map (fields.toList :: ·)
      else .error .fields
  | _ => .error .kind

/-- The values of a field that are not NULL. -/
def fieldValues (rows : List (List Value)) (field : ℕ) : List Value :=
  rows.filterMap fun fields => (fields[field]?).filter (· ≠ .null)

/-- The filters that a comparison with several rows implies on the fields that read one column.
Source: `ImpliedFilters.cpp` `deriveColumnFiltersFromRowIn`. -/
def deriveColumnFiltersFromRowIn (expression : Expr) :
    Except RowInFailure (List (Column × Expr)) :=
  match constantInList expression with
  | some (.call .rowConstructor args _, inList) =>
      if args.toList.length < 2 then .ok []
      else (rowFields args.toList.length inList).map fun rows =>
        args.toList.zipIdx.filterMap fun (fieldExpression, field) =>
          match fieldExpression.columns with
          | [column] =>
              if containsNonDeterministic volatile fieldExpression ∨ fieldValues rows field = []
                then none
              else some (column, makeIn registry fieldExpression (fieldValues rows field))
          | _ => none
  | _ => .ok []

/-- The one column an expression reads, as its group.
Source: `ImpliedFilters.cpp` `deriveForColumns`. -/
def onlyColumn : List Column → Option Column
  | [column] => some column
  | _ => none

/-- The group of an expression is all it reads. -/
lemma mem_of_onlyColumn (columns : List Column) (column : Column)
    (h : onlyColumn columns = some column) : ∀ c ∈ columns, c ∈ ({column} : Set Column) := by
  unfold onlyColumn at h
  split at h
  · cases h
    simp
  · cases h

/-! ### Columns of calls -/

section

variable {registry}

lemma Exprs.mem_columns {c : Column} (args : Exprs) :
    c ∈ args.columns ↔ ∃ a ∈ args.toList, c ∈ a.columns := by
  cases args with
  | nil => simp [Exprs.columns, toList]
  | cons head tail =>
    rw [Exprs.columns, List.mem_union_iff, mem_columns tail, toList]
    simp

lemma mem_columns_apply {c : Column} {name : FunctionName} {args : List Expr} {type : SqlType} :
    c ∈ (Expr.apply name args type).columns ↔ ∃ a ∈ args, c ∈ a.columns := by
  rw [Expr.apply, Expr.columns, Exprs.mem_columns, Exprs.toList_ofList]

/-- A call reads what its arguments read. -/
lemma mem_columns_makeCall {c : Column} {name : FunctionName} {args : List Expr} {type : SqlType} :
    c ∈ (makeCall registry name args type).columns ↔ ∃ a ∈ args, c ∈ a.columns := by
  rw [makeCall, mem_columns_apply]
  unfold canonicalizeCall
  split
  · split
    · split
      · simp [or_comm]
      · rfl
    · rfl
  · rfl

lemma mem_columns_makeJunction {c : Column} {isOr : Bool} {a b : Expr}
    (h : c ∈ (makeJunction registry isOr a b).columns) : c ∈ a.columns ∨ c ∈ b.columns := by
  have hcall : ∀ {name : FunctionName}, c ∈ (makeCall registry name [a, b] .boolean).columns →
      c ∈ a.columns ∨ c ∈ b.columns := fun h => by simpa using mem_columns_makeCall.mp h
  unfold makeJunction makeOr makeAnd at h
  split at h
  · exact hcall h
  · split at h
    · exact Or.inl h
    · exact hcall h

/-- A comparison with constants reads what its value reads. -/
lemma mem_columns_makeIn {c : Column} {value : Expr} {values : List Value}
    (h : c ∈ (makeIn registry value values).columns) : c ∈ value.columns := by
  unfold makeIn makeComparison at h
  split at h
  · simpa [Expr.columns] using mem_columns_makeCall.mp h
  · simpa [Expr.columns] using mem_columns_makeCall.mp h

end

mutual

/-- What an expression reads, one of its parts reads. -/
lemma mem_columns_flatten {name : FunctionName} : (e : Expr) → ∀ c ∈ e.columns,
    ∃ d ∈ flatten name e, c ∈ d.columns
  | .column column, c, hc => ⟨_, List.mem_singleton_self _, hc⟩
  | .literal value type, c, hc => ⟨_, List.mem_singleton_self _, hc⟩
  | .field base name type, c, hc => ⟨_, List.mem_singleton_self _, hc⟩
  | .call f args type, c, hc => by
    rw [flatten]
    split
    · exact mem_columns_flattenArgs args c hc
    · exact ⟨_, List.mem_singleton_self _, hc⟩

lemma mem_columns_flattenArgs {name : FunctionName} : (args : Exprs) → ∀ c ∈ args.columns,
    ∃ d ∈ flattenArgs name args, c ∈ d.columns
  | .nil, c, hc => by cases hc
  | .cons head tail, c, hc => by
    rw [Exprs.columns, List.mem_union_iff] at hc
    rcases hc with hc | hc
    · obtain ⟨d, hd, hc⟩ := mem_columns_flatten head c hc
      exact ⟨d, List.mem_append_left _ hd, hc⟩
    · obtain ⟨d, hd, hc⟩ := mem_columns_flattenArgs tail c hc
      exact ⟨d, List.mem_append_right _ hd, hc⟩

end

/-! ### What a combination accepts -/

section

variable {engine : Engine} {registry}

variable (engine) in
/-- An AND or an OR of conditions is met. -/
def Engine.acceptsJunction (isOr : Bool) (row : Row) (l : List Expr) : Prop :=
  if isOr then ∃ d ∈ l, engine.accepts row d else ∀ d ∈ l, engine.accepts row d

/-- An AND or an OR of some conditions stands for that of others, and reads nothing else. -/
structure StandsForAll (engine : Engine) (isOr : Bool) (l l' : List Expr) : Prop where
  condition : ∀ d ∈ l', Condition d
  backed : ∀ n, ∀ d ∈ l', n ∈ d.backed → ∃ a ∈ l, n ∈ a.backed
  columns : ∀ c, ∀ d ∈ l', c ∈ d.columns → ∃ a ∈ l, c ∈ a.columns
  accepts : ∀ row, engine.acceptsJunction isOr row l' ↔ engine.acceptsJunction isOr row l

namespace StandsForAll

variable {isOr : Bool}

lemma refl {l : List Expr} (h : ∀ d ∈ l, Condition d) : StandsForAll engine isOr l l :=
  ⟨h, fun _ d hd hn => ⟨d, hd, hn⟩, fun _ d hd hc => ⟨d, hd, hc⟩, fun _ => Iff.rfl⟩

lemma trans {l l' l'' : List Expr} (h : StandsForAll engine isOr l l')
    (h' : StandsForAll engine isOr l' l'') : StandsForAll engine isOr l l'' where
  condition := h'.condition
  backed n d hd hn := by
    obtain ⟨a, ha, hn⟩ := h'.backed n d hd hn
    exact h.backed n a ha hn
  columns c d hd hc := by
    obtain ⟨a, ha, hc⟩ := h'.columns c d hd hc
    exact h.columns c a ha hc
  accepts row := (h'.accepts row).trans (h.accepts row)

lemma append {l l' m m' : List Expr} (h : StandsForAll engine isOr l l')
    (h' : StandsForAll engine isOr m m') : StandsForAll engine isOr (l ++ m) (l' ++ m') where
  condition d hd := (List.mem_append.mp hd).elim (h.condition d) (h'.condition d)
  backed n d hd hn := by
    rcases List.mem_append.mp hd with hd | hd
    · obtain ⟨a, ha, hn⟩ := h.backed n d hd hn
      exact ⟨a, List.mem_append_left _ ha, hn⟩
    · obtain ⟨a, ha, hn⟩ := h'.backed n d hd hn
      exact ⟨a, List.mem_append_right _ ha, hn⟩
  columns c d hd hc := by
    rcases List.mem_append.mp hd with hd | hd
    · obtain ⟨a, ha, hc⟩ := h.columns c d hd hc
      exact ⟨a, List.mem_append_left _ ha, hc⟩
    · obtain ⟨a, ha, hc⟩ := h'.columns c d hd hc
      exact ⟨a, List.mem_append_right _ ha, hc⟩
  accepts row := by
    have hl := h.accepts row
    have hm := h'.accepts row
    unfold Engine.acceptsJunction at hl hm ⊢
    cases isOr
    · simp only [Bool.false_eq_true, if_false, List.forall_mem_append] at hl hm ⊢
      exact and_congr hl hm
    · simp only [if_true, List.mem_append, or_and_right, exists_or] at hl hm ⊢
      exact or_congr hl hm

end StandsForAll

/-- An AND or an OR of two conditions. -/
lemma standsForAll_makeJunction (hsound : registry.Sound engine) (isOr : Bool) {a b : Expr}
    (ha : Condition a) (hb : Condition b) :
    StandsForAll engine isOr [a, b] [makeJunction registry isOr a b] := by
  have hbacked : a.backed ⊆ a.backed ++ b.backed := List.subset_append_left _ _
  have hbacked' : b.backed ⊆ a.backed ++ b.backed := List.subset_append_right _ _
  have hstands : Stands engine (a.backed ++ b.backed)
      (fun row => if isOr then (engine.eval row a).truth.or (engine.eval row b).truth
        else (engine.eval row a).truth.and (engine.eval row b).truth)
      (makeJunction registry isOr a b) := by
    cases isOr
    · exact stands_makeAnd hsound (ha.stands hbacked) (hb.stands hbacked')
    · exact stands_makeOr hsound (ha.stands hbacked) (hb.stands hbacked')
  refine ⟨fun d hd => List.mem_singleton.mp hd ▸ hstands.condition, fun n d hd hn => ?_,
    fun c d hd hc => ?_, fun row => ?_⟩
  · have hn := hstands.backed (List.mem_singleton.mp hd ▸ hn)
    simpa using hn
  · simpa using mem_columns_makeJunction (List.mem_singleton.mp hd ▸ hc)
  · have htruth := hstands.truth row
    unfold Engine.acceptsJunction Engine.accepts
    cases isOr
    · simp only [Bool.false_eq_true, if_false] at htruth ⊢
      simp [htruth]
    · simp only [if_true] at htruth ⊢
      simp [htruth]

lemma standsForAll_combinePairs (hsound : registry.Sound engine) (isOr : Bool) :
    ∀ (a : Expr) (rest : List Expr), (∀ d ∈ a :: rest, Condition d) →
      StandsForAll engine isOr (a :: rest)
        ((combinePairs (makeJunction registry isOr) a rest).1 ::
          (combinePairs (makeJunction registry isOr) a rest).2)
  | a, [], h => .refl h
  | a, [b], h => standsForAll_makeJunction hsound isOr (h a (by simp)) (h b (by simp))
  | a, b :: c :: rest, h =>
    (standsForAll_makeJunction hsound isOr (h a (by simp)) (h b (by simp))).append
      (standsForAll_combinePairs hsound isOr c rest fun d hd => h d (by simp [List.mem_cons.mp hd]))

/-- A balanced tree over conditions. -/
lemma standsForAll_combineBalanced (hsound : registry.Sound engine) (isOr : Bool) :
    ∀ (first : Expr) (rest : List Expr), (∀ d ∈ first :: rest, Condition d) →
      StandsForAll engine isOr (first :: rest)
        [combineBalanced (makeJunction registry isOr) first rest] := by
  intro first rest
  induction first, rest using combineBalanced.induct (makeJunction registry isOr) with
  | case1 first =>
    intro h
    rw [combineBalanced]
    exact .refl h
  | case2 first next rest ih =>
    intro h
    rw [combineBalanced]
    have hpairs := standsForAll_combinePairs hsound isOr first (next :: rest) h
    exact hpairs.trans (ih hpairs.condition)

end

/-! ### What a group collects -/

/-- The projections onto a group. -/
def ofGroup (group : G) (projections : List (GroupedProjection G)) : List (GroupedProjection G) :=
  projections.filter fun p => decide (p.group = group)

/-- The filters of some projections, their number, and whether all match. -/
structure Accumulator.Collects (acc : Accumulator G) (projections : List (GroupedProjection G)) :
    Prop where
  filters : acc.first :: acc.rest = projections.map (·.filter)
  number : acc.numMatchedOperands = projections.length
  matched : acc.childrenMatchSource = projections.all (·.matchesSource)

lemma ofGroup_concat_of_eq {group : G} {done : List (GroupedProjection G)} {p : GroupedProjection G}
    (h : p.group = group) : ofGroup group (done ++ [p]) = ofGroup group done ++ [p] := by
  simp [ofGroup, h]

lemma ofGroup_concat_of_ne {group : G} {done : List (GroupedProjection G)} {p : GroupedProjection G}
    (h : p.group ≠ group) : ofGroup group (done ++ [p]) = ofGroup group done := by
  simp [ofGroup, h]

lemma Accumulator.Collects.add {acc : Accumulator G} {projections : List (GroupedProjection G)}
    (h : acc.Collects projections) (p : GroupedProjection G) :
    (acc.add p).Collects (projections ++ [p]) where
  filters := by
    rw [List.map_append, ← h.filters]
    rfl
  number := by
    rw [List.length_append, ← h.number]
    rfl
  matched := by
    rw [List.all_append, ← h.matched]
    simp [Accumulator.add]

/-- The accumulators hold what was projected so far. -/
def CollectAll (accumulators : List (Accumulator G)) (done : List (GroupedProjection G)) : Prop :=
  ∀ acc ∈ accumulators, acc.Collects (ofGroup acc.group done)

lemma groups_addProjection (opens : Bool) (accumulators : List (Accumulator G))
    (p : GroupedProjection G) : (addProjection opens accumulators p).map (·.group) =
      if p.group ∈ accumulators.map (·.group) then accumulators.map (·.group)
      else if opens then accumulators.map (·.group) ++ [p.group]
      else accumulators.map (·.group) := by
  unfold addProjection
  split
  · rw [List.map_map]
    refine List.map_congr_left fun acc _ => ?_
    simp only [Function.comp_apply]
    split <;> rfl
  · split
    · simp [Accumulator.ofProjection]
    · rfl

lemma CollectAll.addProjection {opens : Bool} {accumulators : List (Accumulator G)}
    {done : List (GroupedProjection G)} (h : CollectAll accumulators done)
    (hopens : opens = true → ∀ q ∈ done, q.group ∈ accumulators.map (·.group))
    (p : GroupedProjection G) :
    CollectAll (addProjection opens accumulators p) (done ++ [p]) := by
  unfold Filters.addProjection
  split
  · intro acc hacc
    obtain ⟨old, hold, rfl⟩ := List.mem_map.mp hacc
    by_cases hgroup : old.group = p.group
    · rw [if_pos hgroup]
      have hsame : (old.add p).group = old.group := rfl
      rw [hsame, ofGroup_concat_of_eq hgroup.symm]
      exact (h old hold).add p
    · rw [if_neg hgroup, ofGroup_concat_of_ne fun heq => hgroup heq.symm]
      exact h old hold
  · rename_i hnew
    have hkept : CollectAll accumulators (done ++ [p]) := by
      intro acc hacc
      rw [ofGroup_concat_of_ne fun heq => hnew (heq ▸ List.mem_map_of_mem hacc)]
      exact h acc hacc
    split
    · rename_i hopen
      intro acc hacc
      rcases List.mem_append.mp hacc with hacc | hacc
      · exact hkept acc hacc
      · obtain rfl := List.mem_singleton.mp hacc
        have hnone : ofGroup p.group done = [] := List.filter_eq_nil_iff.mpr fun q hq heq =>
          hnew (of_decide_eq_true heq ▸ hopens hopen q hq)
        have hgroup : (Accumulator.ofProjection p).group = p.group := rfl
        rw [hgroup, ofGroup_concat_of_eq rfl, hnone]
        exact ⟨rfl, rfl, by simp [Accumulator.ofProjection]⟩
    · exact hkept

lemma CollectAll.foldl {opens : Bool} : ∀ (projections : List (GroupedProjection G))
    {accumulators : List (Accumulator G)} {done : List (GroupedProjection G)},
    CollectAll accumulators done →
    (opens = true → ∀ q ∈ done, q.group ∈ accumulators.map (·.group)) →
    CollectAll (projections.foldl (Filters.addProjection opens) accumulators)
        (done ++ projections) ∧
      (opens = true → ∀ q ∈ done ++ projections,
        q.group ∈ (projections.foldl (Filters.addProjection opens) accumulators).map (·.group))
  | [], _, _, h, hopens => by simpa using And.intro h hopens
  | p :: projections, accumulators, done, h, hopens => by
    rw [List.foldl_cons, List.append_cons]
    refine CollectAll.foldl projections (h.addProjection hopens p) fun hopen q hq => ?_
    rw [groups_addProjection, if_pos hopen]
    rcases List.mem_append.mp hq with hq | hq
    · have := hopens hopen q hq
      split
      · exact this
      · exact List.mem_append_left _ this
    · obtain rfl := List.mem_singleton.mp hq
      split
      · assumption
      · simp

/-- **The accumulators of an AND or an OR hold all that its operands say of their groups.** -/
lemma collectAll_accumulate (isOr : Bool) : (operands : List (List (GroupedProjection G))) →
    CollectAll (accumulate isOr operands) operands.flatten
  | [] => by simp [CollectAll, accumulate]
  | operand :: operands => by
    have hempty : CollectAll ([] : List (Accumulator G)) [] := by simp [CollectAll]
    obtain ⟨hfirst, hopens⟩ := @CollectAll.foldl G _ true operand _ _ hempty (by simp)
    rw [accumulate, List.flatten_cons, ← List.foldl_flatten]
    exact (hfirst.foldl _ fun _ => hopens rfl).1

lemma nodup_foldl_addProjection {opens : Bool} : ∀ (projections : List (GroupedProjection G))
    {accumulators : List (Accumulator G)}, (accumulators.map (·.group)).Nodup →
    ((projections.foldl (addProjection opens) accumulators).map (·.group)).Nodup
  | [], _, h => h
  | p :: projections, accumulators, h => by
    rw [List.foldl_cons]
    refine nodup_foldl_addProjection projections ?_
    rw [groups_addProjection]
    split
    · exact h
    · rename_i hnew
      split
      · exact List.nodup_append.mpr ⟨h, List.nodup_singleton _, fun a ha b hb heq =>
          hnew (List.mem_singleton.mp hb ▸ heq ▸ ha)⟩
      · exact h

/-- A group is opened once. -/
lemma nodup_accumulate (isOr : Bool) (operands : List (List (GroupedProjection G))) :
    ((accumulate isOr operands).map (·.group)).Nodup := by
  cases operands with
  | nil => exact List.nodup_nil
  | cons operand operands =>
    rw [accumulate, ← List.foldl_flatten]
    exact nodup_foldl_addProjection _ (nodup_foldl_addProjection _ List.nodup_nil)

lemma length_ofGroup_le {group : G} {projections : List (GroupedProjection G)}
    (h : (projections.map (·.group)).Nodup) : (ofGroup group projections).length ≤ 1 := by
  rw [ofGroup, ← List.countP_eq_length_filter]
  have hcount := List.nodup_iff_count_le_one.mp h group
  rw [List.count, List.countP_map] at hcount
  refine le_of_eq_of_le (List.countP_congr fun p _ => ?_) hcount
  simp

/-- A group met as often as there are operands is met in every operand. -/
lemma exists_of_length_ofGroup {group : G} : ∀ {operands : List (List (GroupedProjection G))},
    (∀ operand ∈ operands, (operand.map (·.group)).Nodup) →
    (ofGroup group operands.flatten).length ≤ operands.length ∧
      ((ofGroup group operands.flatten).length = operands.length →
        ∀ operand ∈ operands, ∃ p ∈ operand, p.group = group)
  | [], _ => by simp [ofGroup]
  | operand :: operands, h => by
    obtain ⟨hle, hmem⟩ := @exists_of_length_ofGroup group operands fun o ho =>
      h o (List.mem_cons_of_mem operand ho)
    have hone : (ofGroup group operand).length ≤ 1 :=
      length_ofGroup_le (h operand List.mem_cons_self)
    have hsplit : (ofGroup group (operand :: operands).flatten).length =
        (ofGroup group operand).length + (ofGroup group operands.flatten).length := by
      simp [ofGroup]
    rw [hsplit, List.length_cons]
    refine ⟨by omega, fun heq o ho => ?_⟩
    rcases List.mem_cons.mp ho with rfl | ho
    · obtain ⟨p, hp⟩ := List.exists_mem_of_length_pos (l := ofGroup group o) (by omega)
      exact ⟨p, List.mem_of_mem_filter hp, of_decide_eq_true (List.mem_filter.mp hp).2⟩
    · exact hmem (by omega) o ho

/-! ### Projections are implied -/

section

variable {engine : Engine} {registry} {groupFor : List Column → Option G}

lemma projectLogicalExpression_leaf {e : Expr} (h : junctionOf e = none) :
    projectLogicalExpression registry groupFor e =
      match groupFor e.columns with
      | none => []
      | some group => [⟨group, e, true⟩] := by
  rw [projectLogicalExpression]
  split
  · rfl
  · rename_i heq
    rw [h] at heq
    cases heq

lemma projectLogicalExpression_junction {e : Expr} {name : FunctionName}
    (h : junctionOf e = some name) :
    projectLogicalExpression registry groupFor e =
      combineProjections registry (decide (name = .or))
        ((flatten name e).map (projectLogicalExpression registry groupFor)) := by
  rw [projectLogicalExpression]
  split
  · rename_i heq
    rw [h] at heq
    cases heq
  · rename_i name' heq
    obtain rfl : name = name' := Option.some.inj (h.symm.trans heq)
    rw [List.attach_map_val (f := projectLogicalExpression registry groupFor)]

/-- An expression is projected onto a group at most once. -/
lemma nodup_projectLogicalExpression (e : Expr) :
    ((projectLogicalExpression registry groupFor e).map (·.group)).Nodup := by
  rcases h : junctionOf e with - | name
  · rw [projectLogicalExpression_leaf h]
    split
    · exact List.nodup_nil
    · exact List.nodup_singleton _
  · rw [projectLogicalExpression_junction h, combineProjections, List.map_map]
    exact (nodup_accumulate _ _).sublist (List.filter_sublist.map _)

/-- A filter on a group that a condition implies: it reads the columns of the group, is true wherever
the condition is, and accepts the same rows where it is said to match. -/
structure Implied (engine : Engine) (chosen : G → Set Column) (e : Expr) (p : GroupedProjection G) :
    Prop where
  condition : Condition p.filter
  backed : p.filter.backed ⊆ e.backed
  reads : ∀ c ∈ p.filter.columns, c ∈ chosen p.group
  necessary : ∀ row, engine.accepts row e → engine.accepts row p.filter
  matched : p.matchesSource = true → ∀ row, engine.accepts row p.filter → engine.accepts row e
  readsSource : p.matchesSource = true → ∀ c ∈ e.columns, c ∈ chosen p.group

lemma junctionOf_eq {e : Expr} {name : FunctionName} (h : junctionOf e = some name) :
    name = .and ∨ name = .or := by
  unfold junctionOf at h
  split at h
  · exact Or.inl (Option.some.inj h).symm
  · exact Or.inr (Option.some.inj h).symm
  · cases h

/-- A condition is met when its operands meet it. -/
lemma accepts_junction {e : Expr} {name : FunctionName} (h : junctionOf e = some name) (row : Row) :
    engine.accepts row e ↔ engine.acceptsJunction (decide (name = .or)) row (flatten name e) := by
  rcases junctionOf_eq h with rfl | rfl
  · simpa [Engine.acceptsJunction] using accepts_flattenAnd e
  · simpa [Engine.acceptsJunction] using accepts_flattenOr e

variable {chosen : G → Set Column}

/-- What the operands imply, the AND or the OR implies. -/
lemma implied_combineProjections (hsound : registry.Sound engine) {e : Expr} {name : FunctionName}
    (h : junctionOf e = some name) {project : Expr → List (GroupedProjection G)}
    (hbacked : ∀ d ∈ flatten name e, d.backed ⊆ e.backed)
    (hnodup : ∀ d ∈ flatten name e, ((project d).map (·.group)).Nodup)
    (himplied : ∀ d ∈ flatten name e, ∀ p ∈ project d, Implied engine chosen d p) :
    ∀ p ∈ combineProjections registry (decide (name = .or)) ((flatten name e).map project),
      Implied engine chosen e p := by
  intro p hp
  obtain ⟨acc, hacc, rfl⟩ := List.mem_map.mp hp
  obtain ⟨hacc, hkept⟩ := List.mem_filter.mp hacc
  have hcollects := collectAll_accumulate _ _ acc hacc
  set operands := (flatten name e).map project with hoperands
  -- Each filter of the group is one an operand implies.
  have hfilters : ∀ f ∈ acc.first :: acc.rest, ∃ d ∈ flatten name e, ∃ q ∈ project d,
      q.group = acc.group ∧ q.filter = f ∧ q ∈ ofGroup acc.group operands.flatten := by
    intro f hf
    rw [hcollects.filters] at hf
    obtain ⟨q, hq, rfl⟩ := List.mem_map.mp hf
    obtain ⟨hflat, hgroup⟩ := List.mem_filter.mp hq
    obtain ⟨operand, hoperand, hqmem⟩ := List.mem_flatten.mp hflat
    obtain ⟨d, hd, rfl⟩ := List.mem_map.mp hoperand
    exact ⟨d, hd, q, hqmem, of_decide_eq_true hgroup, rfl, hq⟩
  -- Where the group was met as often as there are operands, every operand has a filter in it.
  have hall : acc.numMatchedOperands = operands.length → ∀ d ∈ flatten name e, ∃ q ∈ project d,
      q.group = acc.group ∧ q.filter ∈ acc.first :: acc.rest := by
    intro hnumber d hd
    have hnodupAll : ∀ operand ∈ operands, (operand.map (·.group)).Nodup := by
      intro operand hoperand
      obtain ⟨d, hd, rfl⟩ := List.mem_map.mp hoperand
      exact hnodup d hd
    obtain ⟨q, hq, hgroup⟩ := (exists_of_length_ofGroup hnodupAll).2
      (hcollects.number.symm.trans hnumber) (project d) (List.mem_map_of_mem hd)
    refine ⟨q, hq, hgroup, hcollects.filters ▸ List.mem_map_of_mem (List.mem_filter.mpr
      ⟨List.mem_flatten.mpr ⟨project d, List.mem_map_of_mem hd, hq⟩, decide_eq_true hgroup⟩)⟩
  have hmatched : acc.childrenMatchSource = true →
      ∀ q ∈ ofGroup acc.group operands.flatten, q.matchesSource = true := by
    intro hchildren
    rw [hcollects.matched] at hchildren
    exact List.all_eq_true.mp hchildren
  have hconditions : ∀ f ∈ acc.first :: acc.rest, Condition f := by
    intro f hf
    obtain ⟨d, hd, q, hq, -, rfl, -⟩ := hfilters f hf
    exact (himplied d hd q hq).condition
  have hcombined := standsForAll_combineBalanced hsound (decide (name = .or)) acc.first acc.rest
    hconditions
  have haccepts : ∀ row, engine.accepts row (combineBalanced
      (makeJunction registry (decide (name = .or))) acc.first acc.rest) ↔
        engine.acceptsJunction (decide (name = .or)) row (acc.first :: acc.rest) := by
    intro row
    rw [← hcombined.accepts row]
    unfold Engine.acceptsJunction
    split <;> simp
  refine ⟨hcombined.condition _ (by simp), fun n hn => ?_, fun c hc => ?_, fun row hrow => ?_,
    fun hmatch row hrow => ?_, fun hmatch c hc => ?_⟩
  · obtain ⟨f, hf, hn⟩ := hcombined.backed n _ (List.mem_singleton_self _) hn
    obtain ⟨d, hd, q, hq, -, rfl, -⟩ := hfilters f hf
    exact hbacked d hd ((himplied d hd q hq).backed hn)
  · obtain ⟨f, hf, hc⟩ := hcombined.columns c _ (List.mem_singleton_self _) hc
    obtain ⟨d, hd, q, hq, hgroup, rfl, -⟩ := hfilters f hf
    exact hgroup ▸ (himplied d hd q hq).reads c hc
  · rw [accepts_junction h] at hrow
    rw [haccepts]
    rcases junctionOf_eq h with rfl | rfl
    · simp only [Engine.acceptsJunction, reduceCtorEq, decide_false, Bool.false_eq_true, if_false]
        at hrow ⊢
      intro f hf
      obtain ⟨d, hd, q, hq, -, rfl, -⟩ := hfilters f hf
      exact (himplied d hd q hq).necessary row (hrow d hd)
    · simp only [Engine.acceptsJunction, decide_true, if_true] at hrow ⊢
      obtain ⟨d, hd, hrow⟩ := hrow
      have hnumber : acc.numMatchedOperands = operands.length := by simpa using hkept
      obtain ⟨q, hq, -, hmem⟩ := hall hnumber d hd
      exact ⟨q.filter, hmem, (himplied d hd q hq).necessary row hrow⟩
  · simp only [Bool.and_eq_true, beq_iff_eq] at hmatch
    obtain ⟨hnumber, hchildren⟩ := hmatch
    have hmatched := hmatched hchildren
    rw [haccepts] at hrow
    rw [accepts_junction h]
    rcases junctionOf_eq h with rfl | rfl
    · simp only [Engine.acceptsJunction, reduceCtorEq, decide_false, Bool.false_eq_true, if_false]
        at hrow ⊢
      intro d hd
      obtain ⟨q, hq, hgroup, hmem⟩ := hall hnumber d hd
      refine (himplied d hd q hq).matched (hmatched q (List.mem_filter.mpr
        ⟨List.mem_flatten.mpr ⟨project d, List.mem_map_of_mem hd, hq⟩, decide_eq_true hgroup⟩))
        row (hrow _ hmem)
    · simp only [Engine.acceptsJunction, decide_true, if_true] at hrow ⊢
      obtain ⟨f, hf, hrow⟩ := hrow
      obtain ⟨d, hd, q, hq, -, rfl, hof⟩ := hfilters f hf
      exact ⟨d, hd, (himplied d hd q hq).matched (hmatched q hof) row hrow⟩
  · simp only [Bool.and_eq_true, beq_iff_eq] at hmatch
    obtain ⟨hnumber, hchildren⟩ := hmatch
    obtain ⟨d, hd, hc⟩ := mem_columns_flatten e c hc
    obtain ⟨q, hq, hgroup, -⟩ := hall hnumber d hd
    exact hgroup ▸ (himplied d hd q hq).readsSource (hmatched hchildren q (List.mem_filter.mpr
      ⟨List.mem_flatten.mpr ⟨project d, List.mem_map_of_mem hd, hq⟩, decide_eq_true hgroup⟩)) c hc

/-- **Projections are implied**, at every depth of ANDs and ORs. -/
theorem projected_implied (hsound : registry.Sound engine)
    (hgroup : ∀ columns group, groupFor columns = some group → ∀ c ∈ columns, c ∈ chosen group)
    {e : Expr} (he : Condition e) :
    ∀ p ∈ projectLogicalExpression registry groupFor e, Implied engine chosen e p := by
  rcases h : junctionOf e with - | name
  · rw [projectLogicalExpression_leaf h]
    intro p hp
    split at hp
    · cases hp
    · rename_i group hcolumns
      obtain rfl := List.mem_singleton.mp hp
      exact ⟨he, List.Subset.refl _, hgroup _ _ hcolumns, fun _ h => h, fun _ _ h => h,
        fun _ => hgroup _ _ hcolumns⟩
  · rw [projectLogicalExpression_junction h]
    have hoperands := condition_flatten (junctionOf_eq h) e he
    exact implied_combineProjections hsound h (fun d hd => (hoperands d hd).2)
      (fun d _ => nodup_projectLogicalExpression d) fun d hd =>
        have := sizeOf_operand h hd
        projected_implied hsound hgroup (hoperands d hd).1
termination_by sizeOf e

/-! ### Rows among rows -/

/-- Rows that are equal are equal in every field. -/
lemma compareValues_of_equalFields : ∀ {types : SqlTypes} {as bs : Values},
    engine.equalFields types as bs = some true → ∀ {i : ℕ} {type : SqlType} {a b : Value},
      types.toList[i]? = some type → as.toList[i]? = some a → bs.toList[i]? = some b →
      engine.compareValues .equality type (.conform type a) (.conform type b) = some true
  | .cons type types, .cons a as, .cons b bs, h, i, _, _, _, htype, ha, hb => by
    rw [Engine.equalFields, Truth.and_eq_true] at h
    cases i with
    | zero =>
      obtain rfl := Option.some.inj htype
      obtain rfl := Option.some.inj ha
      obtain rfl := Option.some.inj hb
      exact h.1
    | succ i => exact compareValues_of_equalFields h.2 htype ha hb
  | .nil, _, _, _, _, _, _, _, htype, _, _ => by cases htype
  | .cons _ _, .nil, _, _, _, _, _, _, _, ha, _ => by cases ha
  | .cons _ _, .cons _ _, .nil, _, _, _, _, _, _, _, hb => by cases hb

lemma rowFields_eq_ok {numFields : ℕ} : ∀ {inList : List Value} {rows : List (List Value)},
    rowFields numFields inList = .ok rows → ∀ value ∈ inList, value ≠ .null →
      ∃ fields : Values, value = .list fields ∧ fields.toList ∈ rows ∧
        fields.toList.length = numFields
  | [], _, _, value, hvalue, _ => absurd hvalue List.not_mem_nil
  | .null :: inList, rows, h, value, hvalue, hne => by
    rcases List.mem_cons.mp hvalue with rfl | hvalue
    · exact absurd rfl hne
    · rw [rowFields] at h
      exact rowFields_eq_ok h value hvalue hne
  | .list fields :: inList, rows, h, value, hvalue, hne => by
    rw [rowFields] at h
    split at h
    · rename_i hlength
      rcases hrest : rowFields numFields inList with failure | rest
      · rw [hrest] at h
        cases h
      · rw [hrest] at h
        cases h
        rcases List.mem_cons.mp hvalue with rfl | hvalue
        · exact ⟨fields, rfl, List.mem_cons_self, hlength⟩
        · obtain ⟨fields', heq, hmem, hlength'⟩ := rowFields_eq_ok hrest value hvalue hne
          exact ⟨fields', heq, List.mem_cons_of_mem _ hmem, hlength'⟩
    · cases h
  | .boolean _ :: _, _, h, _, _, _ => by cases h
  | .integral _ :: _, _, h, _, _, _ => by cases h
  | .text _ :: _, _, h, _, _, _ => by cases h

lemma constantInList_eq_some {e value : Expr} {inList : List Value}
    (h : constantInList e = some (value, inList)) : ∃ elements type, inList = elements.toList ∧
      e = .apply .in [value, .literal (.list elements) (.array value.type)] type := by
  unfold constantInList at h
  split at h
  · split at h
    · rename_i htype
      obtain ⟨rfl, rfl⟩ := Prod.mk.inj (Option.some.inj h)
      exact ⟨_, _, rfl, by rw [htype]; rfl⟩
    · cases h
  · cases h

/-- A comparison with the constants of an array is true when one of them is equal. -/
lemma accepts_constantIn {value : Expr} {elements : Values} {type : SqlType} {row : Row}
    (h : engine.accepts row
      (.apply .in [value, .literal (.list elements) (.array value.type)] type)) :
    ∃ element ∈ elements.toList, engine.compareValues .equality value.type (engine.eval row value)
      (.conform value.type element) = some true := by
  rw [Engine.accepts, Engine.eval_apply, Value.truth_conform] at h
  simp only [List.map_cons, List.map_nil, Engine.apply, Value.truth_ofTruth, List.headD_cons,
    Expr.type, Engine.eval, Value.conform, Engine.inElements, if_true] at h
  unfold Engine.isIn at h
  simp only at h
  split at h
  · cases h
  · rw [Truth.any_eq_true, List.map_map] at h
    obtain ⟨element, helement, heq⟩ := List.mem_map.mp h
    exact ⟨element, helement, heq⟩

/-- A value that equals one of several is among them. -/
lemma accepts_makeIn (hsound : registry.Sound engine) {value : Expr} (hvalue : value.Typed)
    {values : List Value} {v : Value} (hv : v ∈ values) {row : Row}
    (heq : engine.compareValues .equality value.type (engine.eval row value)
      (.conform value.type v) = some true) :
    engine.accepts row (makeIn registry value values) := by
  have hin := stands_makeIn hsound values hvalue (List.Subset.refl value.backed)
  rw [Engine.accepts, hin.truth]
  have hne : engine.eval row value ≠ .null := by
    intro hnull
    rw [hnull, compareValues_null_left] at heq
    cases heq
  unfold Engine.isIn
  simp only [hne, if_false]
  rw [Truth.any_eq_true, List.map_map]
  exact List.mem_map.mpr ⟨v, hv, heq⟩

/-- **A comparison with rows implies one of each field**, NULL rows and NULL fields standing for no
value. -/
theorem rowIn_implied (hsound : registry.Sound engine) {volatile : FunctionName → Bool} {e : Expr}
    (he : Condition e) {derived : List (Column × Expr)}
    (h : deriveColumnFiltersFromRowIn registry volatile e = .ok derived) :
    ∀ p ∈ derived, (∀ c ∈ p.2.columns, c = p.1) ∧
      ∀ row, engine.accepts row e → engine.accepts row p.2 := by
  unfold deriveColumnFiltersFromRowIn at h
  split at h
  case h_2 => cases h; exact fun p hp => absurd hp List.not_mem_nil
  case h_1 args rowType inList hconstant =>
  split at h
  · cases h
    exact fun p hp => absurd hp List.not_mem_nil
  rcases hrows : rowFields args.toList.length inList with failure | rows
  · rw [hrows] at h
    cases h
  rw [hrows] at h
  cases h
  intro p hp
  obtain ⟨⟨field, i⟩, hfield, hp⟩ := List.mem_filterMap.mp hp
  have hget : args.toList[i]? = some field := List.mem_zipIdx_iff_getElem?.mp hfield
  simp only at hp
  split at hp
  case h_2 => cases hp
  case h_1 column hcolumns =>
  split at hp
  · cases hp
  cases hp
  refine ⟨fun c hc => ?_, fun row hrow => ?_⟩
  · have hc := mem_columns_makeIn hc
    rw [hcolumns] at hc
    exact List.mem_singleton.mp hc
  · obtain ⟨elements, type, rfl, rfl⟩ := constantInList_eq_some hconstant
    obtain ⟨-, htyped⟩ := typed_apply.mp he.typed
    obtain ⟨hrowType, hargs⟩ := typed_call.mp (htyped _ List.mem_cons_self)
    obtain rfl : rowType = .row (.ofList (args.toList.map Expr.type)) := hrowType
    obtain ⟨element, helement, heq⟩ := accepts_constantIn hrow
    have hne : element ≠ .null := by
      rintro rfl
      rw [Value.conform_null, compareValues_null_right] at heq
      cases heq
    obtain ⟨fields, rfl, hmem, hlength⟩ := rowFields_eq_ok hrows element helement hne
    have hequal : engine.equalFields (.ofList (args.toList.map Expr.type))
        (.ofList (args.toList.map (engine.eval row))) fields = some true := by
      simpa [Engine.eval_call, Engine.apply, Value.conform, Expr.type, Engine.compareValues]
        using heq
    have hi : i < fields.toList.length := hlength ▸ (List.getElem?_eq_some_iff.mp hget).1
    have hv := List.getElem?_eq_getElem hi
    set v := fields.toList[i]
    have hfieldEq := compareValues_of_equalFields hequal
      (i := i) (by rw [SqlTypes.toList_ofList, List.getElem?_map, hget]; rfl)
      (by rw [Values.toList_ofList, List.getElem?_map, hget]; rfl) hv
    rw [engine.conform_eval] at hfieldEq
    have hvne : v ≠ .null := by
      intro hnull
      rw [hnull, Value.conform_null, compareValues_null_right] at hfieldEq
      cases hfieldEq
    refine accepts_makeIn hsound (hargs field (List.mem_of_getElem? hget)) ?_ hfieldEq
    exact List.mem_filterMap.mpr ⟨fields.toList, hmem, by simp [hv, hvne]⟩

/-! ### The three derivations -/

/-- **Implied filters are necessary conditions.** A filter derived on some columns reads only these
and is true wherever the condition it comes from is, and one said to match its source accepts the
same rows. -/
theorem impliedFilters_necessary (hsound : registry.Sound engine) (volatile : FunctionName → Bool)
    (hgroup : ∀ columns group, groupFor columns = some group → ∀ c ∈ columns, c ∈ chosen group)
    {e : Expr} (he : Condition e) :
    (∀ p ∈ projectLogicalExpression registry groupFor e,
      (∀ c ∈ p.filter.columns, c ∈ chosen p.group) ∧
      (∀ row, engine.accepts row e → engine.accepts row p.filter) ∧
      (p.matchesSource = true → ∀ row, engine.accepts row p.filter ↔ engine.accepts row e)) ∧
    (∀ p ∈ deriveGroupedFiltersFromOr registry volatile groupFor e,
      (∀ c ∈ p.2.columns, c ∈ chosen p.1) ∧
      ∀ row, engine.accepts row e → engine.accepts row p.2) ∧
    ∀ derived, deriveColumnFiltersFromRowIn registry volatile e = .ok derived → ∀ p ∈ derived,
      (∀ c ∈ p.2.columns, c = p.1) ∧ ∀ row, engine.accepts row e → engine.accepts row p.2 := by
  have hprojected := projected_implied hsound hgroup he
  refine ⟨fun p hp => ?_, fun p hp => ?_, fun derived hderived => rowIn_implied hsound he hderived⟩
  · have himplied := hprojected p hp
    exact ⟨himplied.reads, himplied.necessary, fun hmatch row =>
      ⟨himplied.matched hmatch row, himplied.necessary row⟩⟩
  · unfold deriveGroupedFiltersFromOr at hp
    split at hp
    · cases hp
    · obtain ⟨q, hq, rfl⟩ := List.mem_map.mp hp
      have himplied := hprojected q hq
      by_cases hmatch : q.matchesSource = true
      · simp only [hmatch, if_true]
        exact ⟨himplied.readsSource hmatch, fun _ h => h⟩
      · simp only [hmatch, Bool.false_eq_true, if_false]
        exact ⟨himplied.reads, himplied.necessary⟩

end

namespace TimestampWithTimeZone

/-- A timestamp equal to one or the other of two, the same instant in two zones. -/
def eitherInstant : Expr :=
  .apply .or
    [backedComparison typeName .equality ⟨0, fits_zero⟩,
      backedComparison typeName .equality ⟨1, fits_one⟩] .boolean

lemma condition_eitherInstant : Condition eitherInstant := by
  have htyped : ∀ v, (backedComparison typeName .equality v).Typed := fun v =>
    typed_apply.mpr ⟨⟨rfl, .bigintBacked typeName, rfl⟩, by simp [Expr.Typed]⟩
  exact ⟨typed_apply.mpr ⟨⟨rfl, by decide⟩, by simp [htyped]⟩, rfl⟩

/-- The OR is on one column, and is the filter derived on it. -/
theorem impliedFilters_eitherInstant :
    deriveGroupedFiltersFromOr TimestampWithTimeZone.registry (fun _ => false) onlyColumn
        eitherInstant = [(backedColumn typeName, eitherInstant)] ∧
      ∀ p ∈ deriveGroupedFiltersFromOr TimestampWithTimeZone.registry (fun _ => false) onlyColumn
        eitherInstant, (∀ c ∈ p.2.columns, c ∈ ({p.1} : Set Column)) ∧
          ∀ row, engine.accepts row eitherInstant → engine.accepts row p.2 := by
  exact ⟨by decide +kernel, (impliedFilters_necessary sound (fun _ => false) mem_of_onlyColumn
    condition_eitherInstant).2.1⟩

end TimestampWithTimeZone

end Verax.Filters
