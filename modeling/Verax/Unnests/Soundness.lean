import Verax.Unnests.Joins
import Verax.Unnests.Pruning

/-!
# What a query returns around unnests

A query reads some columns of a tree, removes their duplicates, or joins two trees. It returns the
same over the rewritten trees.

* `Tree.Returns`, `SimplifiedNode.Returns`: the rows a tree stands for.
* `Join.Runs`: what a join returns.
* `Rewrites.returns`, `Rewrites.distinct`, `runs_rewriteJoinChildren`: the three kinds of query.
* `invisible_rewrite`: all of them.
-/

namespace Verax.Unnests

open Lib Lib.PossibleBags Lib.BagJoin

variable {V : Type}

/-! ### Queries -/

/-- The bags of rows that a query may return of a tree. -/
def Tree.Returns (engine : Engine V) (leafRows : Multiset (Row V)) (output : List Column)
    (node : Tree V) (rows : Multiset (Row V)) : Prop :=
  ∃ M, node.Runs engine leafRows M ∧ rows = M.map (keepColumns engine.null output)

/-- The bags of rows that a rewritten node stands for. -/
def SimplifiedNode.Runs (engine : Engine V) (leafRows : Multiset (Row V))
    (simplified : SimplifiedNode V) (rows : Multiset (Row V)) : Prop :=
  ∃ N, simplified.node.Runs engine leafRows N ∧ rows = N.map simplified.substitutions.view

/-- The bags of rows that a query may return of a rewritten node. -/
def SimplifiedNode.Returns (engine : Engine V) (leafRows : Multiset (Row V)) (output : List Column)
    (simplified : SimplifiedNode V) (rows : Multiset (Row V)) : Prop :=
  ∃ M, simplified.Runs engine leafRows M ∧ rows = M.map (keepColumns engine.null output)

/-- A bag without its duplicates. -/
def Distinct (P : Multiset (Row V) → Prop) (rows : Set (Row V)) : Prop :=
  ∃ M, P M ∧ rows = {row | row ∈ M}

namespace Join

variable (join : Join V)

/-- The bags of rows that a join may return of its inputs. -/
def Runs [DecidableEq V] (engine : Engine V) (leftColumns : List Column)
    (P Q : Multiset (Row V) → Prop) (rows : Multiset (Row V)) : Prop :=
  ∃ A B, P A ∧ Q B ∧ rows ∈ join.outcomes engine leftColumns A B

/-- A join over two trees.
Source: `Node.cpp` `Join::Join`. -/
structure WellFormed (left right : Tree V) : Prop where
  leftTree : left.WellFormed
  rightTree : right.WellFormed
  leftInputPredicates : ∀ p ∈ join.routed.leftInputPredicates, ∀ c ∈ p.columns,
    c ∈ left.outputColumns
  rightInputPredicates : ∀ p ∈ join.routed.rightInputPredicates, ∀ c ∈ p.columns,
    c ∈ right.outputColumns
  leftKeys : ∀ c ∈ Expr.columnsAll join.routed.leftKeys, c ∈ left.outputColumns
  rightKeys : ∀ c ∈ Expr.columnsAll join.routed.rightKeys, c ∈ right.outputColumns
  joinPredicates : ∀ c ∈ Expr.columnsAll join.routed.joinPredicates,
    c ∈ left.outputColumns ∨ c ∈ right.outputColumns
  sources : ∀ c ∈ join.sourceColumns, join.markColumn ≠ some c →
    c ∈ left.outputColumns ∨ c ∈ right.outputColumns

end Join

variable {engine : Engine V} {names : FunctionNames} {leafRows : Multiset (Row V)}

/-! ### Trees -/

/-- Rows that match stand for the same. -/
lemma agree_view {columns : Finset Column} {constants : Constants V} {row row' : Row V}
    (h : RowsMatch columns constants row row') : Agree columns row (constants.view row') := h

/-- A rewritten tree stands for the rows of the tree. -/
lemma Rewrites.matches {node : Tree V} {context : PushdownContext V} {result : SimplifiedNode V}
    (h : Rewrites engine leafRows node context result) :
    Matches context.mayDropDuplicates (Agree (context.required.filter (· ∈ node.outputColumns)))
      ((Tree.filter node context.pending).Runs engine leafRows) (result.Runs engine leafRows) := by
  constructor
  · intro M hM
    obtain ⟨N, hN, halike⟩ := h.rows.1 M hM
    exact ⟨_, ⟨N, hN, rfl⟩, halike.map_right fun _ _ _ => agree_view⟩
  · rintro _ ⟨N, hN, rfl⟩
    obtain ⟨M, hM, halike⟩ := h.rows.2 N hN
    exact ⟨M, hM, halike.map_right fun _ _ _ => agree_view⟩

section Queries

variable {node : Tree V} {context : PushdownContext V} {result : SimplifiedNode V}
  {output : List Column}

private lemma keepColumns_eq (houtput : ∀ c ∈ output, c ∈ context.required ∧ c ∈ node.outputColumns)
    {row row' : Row V} (h : Agree (context.required.filter (· ∈ node.outputColumns)) row row') :
    keepColumns engine.null output row = keepColumns engine.null output row' := by
  funext c
  unfold keepColumns
  split
  · next hc => exact h c (Finset.mem_filter.mpr (houtput c hc))
  · rfl

/-- Where duplicates matter, a query returns the rows of the tree. -/
lemma Rewrites.returns (h : Rewrites engine leafRows node context result)
    (houtput : ∀ c ∈ output, c ∈ context.required ∧ c ∈ node.outputColumns)
    (hkeep : context.mayDropDuplicates = false) (rows : Multiset (Row V)) :
    (Tree.filter node context.pending).Returns engine leafRows output rows ↔
      result.Returns engine leafRows output rows := by
  have hmatches := h.matches
  rw [hkeep] at hmatches
  constructor
  · rintro ⟨M, hM, rfl⟩
    obtain ⟨N, hN, halike⟩ := hmatches.1 M hM
    exact ⟨N, hN, map_of_rel halike fun _ _ => keepColumns_eq houtput⟩
  · rintro ⟨N, hN, rfl⟩
    obtain ⟨M, hM, halike⟩ := hmatches.2 N hN
    exact ⟨M, hM, (map_of_rel halike fun _ _ => keepColumns_eq houtput).symm⟩

/-- A query that removes duplicates returns the rows of the tree. -/
lemma Rewrites.distinct (h : Rewrites engine leafRows node context result)
    (houtput : ∀ c ∈ output, c ∈ context.required ∧ c ∈ node.outputColumns) (rows : Set (Row V)) :
    Distinct ((Tree.filter node context.pending).Returns engine leafRows output) rows ↔
      Distinct (result.Returns engine leafRows output) rows := by
  have hsame : ∀ {M N : Multiset (Row V)}, Alike context.mayDropDuplicates
      (Agree (context.required.filter (· ∈ node.outputColumns))) M N →
      {row | row ∈ M.map (keepColumns engine.null output)} =
        {row | row ∈ N.map (keepColumns engine.null output)} := by
    intro M N halike
    have halike := halike.repeated
    ext out
    simp only [Set.mem_ofPred_eq, Multiset.mem_map]
    constructor
    · rintro ⟨row, hrow, rfl⟩
      obtain ⟨row', hrow', hagree⟩ := halike.1 row hrow
      exact ⟨row', hrow', (keepColumns_eq houtput hagree).symm⟩
    · rintro ⟨row', hrow', rfl⟩
      obtain ⟨row, hrow, hagree⟩ := halike.2 row' hrow'
      exact ⟨row, hrow, keepColumns_eq houtput hagree⟩
  constructor
  · rintro ⟨_, ⟨M, hM, rfl⟩, rfl⟩
    obtain ⟨N, hN, halike⟩ := h.matches.1 M hM
    exact ⟨_, ⟨N, hN, rfl⟩, hsame halike⟩
  · rintro ⟨_, ⟨N, hN, rfl⟩, rfl⟩
    obtain ⟨M, hM, halike⟩ := h.matches.2 N hN
    exact ⟨_, ⟨M, hM, rfl⟩, (hsame halike).symm⟩

end Queries

/-! ### Joins -/

section Joins

variable {join : Join V} {left right : Tree V}

/-- Which inputs of a join may lose duplicates, and that nothing else of their contexts depends on
that. -/
private lemma inputContexts_eq (names : FunctionNames) (join : Join V) :
    ∃ b b', join.MayRepeat names b b' ∧ join.inputContexts names =
      ({ makeJoinInputContext join.routed.leftInputPredicates join.sideRequired with
          mayDropDuplicates := b },
        { makeJoinInputContext join.routed.rightInputPredicates join.sideRequired with
          mayDropDuplicates := b' }) := by
  unfold Join.inputContexts allowJoinInputDeduplication
  split
  · exact ⟨false, false, ⟨nofun, nofun⟩, rfl⟩
  · next hdet =>
      simp only [Bool.or_eq_true, not_or, Bool.not_eq_true] at hdet
      have hdet : join.Deterministic names := ⟨hdet.1.1, hdet.1.2, hdet.2⟩
      split
      · next htype => exact ⟨false, true, ⟨nofun, fun _ => ⟨hdet, .inl htype⟩⟩, rfl⟩
      · next htype => exact ⟨false, true, ⟨nofun, fun _ => ⟨hdet, .inr (.inl htype)⟩⟩, rfl⟩
      · next htype => exact ⟨false, true, ⟨nofun, fun _ => ⟨hdet, .inr (.inr htype)⟩⟩, rfl⟩
      · next htype => exact ⟨true, false, ⟨fun _ => ⟨hdet, .inl htype⟩, nofun⟩, rfl⟩
      · next htype => exact ⟨true, false, ⟨fun _ => ⟨hdet, .inr (.inl htype)⟩, nofun⟩, rfl⟩
      · next htype => exact ⟨true, false, ⟨fun _ => ⟨hdet, .inr (.inr htype)⟩, nofun⟩, rfl⟩
      · exact ⟨false, false, ⟨nofun, nofun⟩, rfl⟩

/-- The inputs are asked for what the join reads. -/
private lemma reads_sideRequired (hjoin : join.WellFormed left right)
    (leftPending rightPending : List (Expr V)) :
    join.Reads left.outputColumns
      ((makeJoinInputContext leftPending join.sideRequired).required.filter
        (· ∈ left.outputColumns))
      ((makeJoinInputContext rightPending join.sideRequired).required.filter
        (· ∈ right.outputColumns)) := by
  have hleft : ∀ c ∈ join.sideRequired, c ∈ left.outputColumns →
      c ∈ (makeJoinInputContext leftPending join.sideRequired).required.filter
        (· ∈ left.outputColumns) := fun c hc hout =>
    Finset.mem_filter.mpr ⟨Finset.mem_union_left _ hc, hout⟩
  have hright : ∀ c ∈ join.sideRequired, c ∈ right.outputColumns →
      c ∈ (makeJoinInputContext rightPending join.sideRequired).required.filter
        (· ∈ right.outputColumns) := fun c hc hout =>
    Finset.mem_filter.mpr ⟨Finset.mem_union_left _ hc, hout⟩
  refine ⟨fun c hc => hleft c ?_ (hjoin.leftKeys c hc), fun c hc => hright c ?_
    (hjoin.rightKeys c hc), fun c hc => ⟨hleft c ?_, fun hout => hright c ?_
      ((hjoin.joinPredicates c hc).resolve_left hout)⟩, fun c hc hmark => ⟨hleft c ?_,
      fun hout => hright c ?_ ((hjoin.sources c hc hmark).resolve_left hout)⟩⟩
  all_goals simp [Join.sideRequired, hc]

/-- A join returns the same over its rewritten inputs. -/
lemma runs_rewriteJoinChildren [DecidableEq V] (hlawful : engine.Lawful names)
    (hjoin : join.WellFormed left right) (leftRows rightRows rows : Multiset (Row V)) :
    join.Runs engine left.outputColumns
        ((Tree.filter left join.routed.leftInputPredicates).Runs engine leftRows)
        ((Tree.filter right join.routed.rightInputPredicates).Runs engine rightRows) rows ↔
      join.Runs engine left.outputColumns
        ((rewriteJoinChildren engine.toVariants names join left right).1.Runs engine leftRows)
        ((rewriteJoinChildren engine.toVariants names join left right).2.Runs engine rightRows)
        rows := by
  obtain ⟨b, b', hrepeat, hcontexts⟩ := inputContexts_eq names join
  have hmatches : ∀ {node : Tree V}, node.WellFormed → ∀ (leafRows : Multiset (Row V))
      (context : PushdownContext V), (∀ p ∈ context.pending, ∀ c ∈ p.columns,
        c ∈ node.outputColumns) → Matches context.mayDropDuplicates
          (Agree (context.required.filter (· ∈ node.outputColumns)))
          ((Tree.filter node context.pending).Runs engine leafRows)
          ((rewrite engine.toVariants names node context).Runs engine leafRows) :=
    fun hnode leafRows context hpending => (rewrites hlawful hnode context hpending).matches
  have hleft := hmatches hjoin.leftTree leftRows
    { makeJoinInputContext join.routed.leftInputPredicates join.sideRequired with
      mayDropDuplicates := b } hjoin.leftInputPredicates
  have hright := hmatches hjoin.rightTree rightRows
    { makeJoinInputContext join.routed.rightInputPredicates join.sideRequired with
      mayDropDuplicates := b' } hjoin.rightInputPredicates
  have hreads := reads_sideRequired hjoin join.routed.leftInputPredicates
    join.routed.rightInputPredicates
  unfold rewriteJoinChildren
  rw [hcontexts]
  constructor
  · rintro ⟨A, B, hA, hB, hrows⟩
    obtain ⟨A', hA', halike⟩ := hleft.1 A hA
    obtain ⟨B', hB', halike'⟩ := hright.1 B hB
    exact ⟨A', B', hA', hB', outcomes_of_alike hlawful hreads hrepeat halike halike' hrows⟩
  · rintro ⟨A', B', hA', hB', hrows⟩
    obtain ⟨A, hA, halike⟩ := hleft.2 A' hA'
    obtain ⟨B, hB, halike'⟩ := hright.2 B' hB'
    have hsymm : ∀ (columns : Finset Column) (r r' : Row V), flip (Agree columns) r r' →
        Agree columns r r' := fun _ _ _ h c hc => (h c hc).symm
    exact ⟨A, B, hA, hB, outcomes_of_alike hlawful hreads hrepeat
      (halike.flip.imp (hsymm _)) (halike'.flip.imp (hsymm _)) hrows⟩

end Joins

/-! ### The pass is invisible -/

/-- The pass on a tree with unnests is invisible to a query, to one that removes duplicates, and to
a join over the tree. -/
theorem invisible_rewrite [DecidableEq V] (hlawful : engine.Lawful names) :
    (∀ (node : Tree V) (context : PushdownContext V) (leafRows : Multiset (Row V))
        (output : List Column), node.WellFormed →
      (∀ p ∈ context.pending, ∀ c ∈ p.columns, c ∈ node.outputColumns) →
      (∀ c ∈ output, c ∈ context.required ∧ c ∈ node.outputColumns) →
      (context.mayDropDuplicates = false → ∀ rows,
        (Tree.filter node context.pending).Returns engine leafRows output rows ↔
          (rewrite engine.toVariants names node context).Returns engine leafRows output rows) ∧
      ∀ rows, Distinct ((Tree.filter node context.pending).Returns engine leafRows output) rows ↔
        Distinct ((rewrite engine.toVariants names node context).Returns engine leafRows output)
          rows) ∧
    ∀ (join : Join V) (left right : Tree V) (leftRows rightRows rows : Multiset (Row V)),
      join.WellFormed left right →
      (join.Runs engine left.outputColumns
          ((Tree.filter left join.routed.leftInputPredicates).Runs engine leftRows)
          ((Tree.filter right join.routed.rightInputPredicates).Runs engine rightRows) rows ↔
        join.Runs engine left.outputColumns
          ((rewriteJoinChildren engine.toVariants names join left right).1.Runs engine leftRows)
          ((rewriteJoinChildren engine.toVariants names join left right).2.Runs engine rightRows)
          rows) := by
  refine ⟨fun node context leafRows output hnode hpending houtput => ?_,
    fun join left right leftRows rightRows rows hjoin =>
      runs_rewriteJoinChildren hlawful hjoin leftRows rightRows rows⟩
  have hrewrites : Rewrites engine leafRows node context
      (rewrite engine.toVariants names node context) := rewrites hlawful hnode context hpending
  exact ⟨fun hkeep => hrewrites.returns houtput hkeep, hrewrites.distinct houtput⟩

/-! ### Arrays of different lengths -/

namespace Lengths

/-- Nullable values with arrays of integers. -/
inductive Value where
  | null
  | boolean (b : Bool)
  | integer (n : ℕ)
  | array (elements : List ℕ)
  deriving DecidableEq

def apply : String → List Value → Value
  | "cardinality", [.array elements] => .integer elements.length
  | "lte", [.integer m, .integer n] => .boolean (decide (m ≤ n))
  | "__or", [v, w] => .boolean (v = .boolean true || w = .boolean true)
  | _, _ => .null

def arrayEngine : Engine Value where
  null := .null
  boolean := .boolean
  integer := .integer
  truth
    | .boolean b => some b
    | _ => none
  collection
    | .array elements => some (elements.map fun n => [.integer n])
    | _ => none
  call name args := {apply name args}
  emptyOrdinality := .null

def functionNames : FunctionNames := ⟨some "cardinality", some "lte", fun _ => false⟩

lemma lawful : arrayEngine.Lawful functionNames where
  nonempty name vs := ⟨_, rfl⟩
  deterministic name vs v w _ hv hw := hv.trans hw.symm
  holds_null := rfl
  holds_boolean b := by cases b <;> rfl
  cardinality name v h := by
    cases h
    cases v <;> simp [arrayEngine, apply, Engine.cardinalityOf]
  lte name m n h := by
    cases h
    rfl
  lte_null name m h := by
    cases h
    rfl
  or v w u h := by
    rw [h]
    have hholds : ∀ v, arrayEngine.holds v = decide (v = .boolean true) := by
      intro v
      cases v with
      | boolean b => cases b <;> rfl
      | _ => rfl
    simp [hholds, apply]

/-- Two arrays are unnested with their ordinality. -/
def unnestKey : UnnestKey Value where
  unnestExpressions := [.column ⟨1⟩, .column ⟨2⟩]
  replicatedColumns := [⟨0⟩]
  unnestColumns := [[⟨3⟩], [⟨4⟩]]
  ordinalityColumn := some ⟨5⟩
  markerColumn := none
  outputColumns := [⟨0⟩, ⟨3⟩, ⟨4⟩, ⟨5⟩]

def arrays : Tree Value := .leaf [⟨0⟩, ⟨1⟩, ⟨2⟩]

/-- A semi join looks up a column that the unnest repeats. -/
def lookup : Join Value where
  joinType := .leftSemiFilter
  routed := ⟨[], [], [.column ⟨6⟩], [.column ⟨0⟩], []⟩
  nullAware := false
  nullAsValue := false
  outputColumns := [⟨6⟩]
  sourceColumns := [⟨6⟩]

/-- A row with a key and two arrays. -/
def row (key first second : Value) : Row Value
  | ⟨0⟩ => key
  | ⟨1⟩ => first
  | ⟨2⟩ => second
  | ⟨6⟩ => key
  | _ => .null

lemma wellFormed_unnestKey : unnestKey.WellFormed arrays where
  expressions := by decide
  aligned := rfl
  reads := by decide
  replicated := by decide
  fresh := by decide
  outputs := by decide

/-- The unnest becomes a filter, with a NULL, an empty and a longer array. -/
theorem invisible_rewrite_lookup :
    (rewriteJoinChildren arrayEngine.toVariants functionNames lookup (.leaf [⟨6⟩])
        (.unnest arrays unnestKey)).2.node = .filter arrays [.call "__or"
          [.call "lte" [.literal (.integer 1), .call "cardinality" [.column ⟨1⟩]],
            .call "lte" [.literal (.integer 1), .call "cardinality" [.column ⟨2⟩]]]] ∧
      ∀ rows, lookup.Runs arrayEngine [⟨6⟩]
          ((Tree.filter (.leaf [⟨6⟩]) []).Runs arrayEngine {row (.integer 7) .null .null})
          ((Tree.filter (.unnest arrays unnestKey) []).Runs arrayEngine
            {row (.integer 7) (.array [5, 6]) .null, row (.integer 7) (.array []) (.array [5])})
          rows ↔
        lookup.Runs arrayEngine [⟨6⟩]
          ((rewriteJoinChildren arrayEngine.toVariants functionNames lookup (.leaf [⟨6⟩])
            (.unnest arrays unnestKey)).1.Runs arrayEngine {row (.integer 7) .null .null})
          ((rewriteJoinChildren arrayEngine.toVariants functionNames lookup (.leaf [⟨6⟩])
            (.unnest arrays unnestKey)).2.Runs arrayEngine
            {row (.integer 7) (.array [5, 6]) .null, row (.integer 7) (.array []) (.array [5])})
          rows := by
  refine ⟨rfl, fun rows => (invisible_rewrite lawful).2 lookup (.leaf [⟨6⟩])
    (.unnest arrays unnestKey) _ _ rows ?_⟩
  exact ⟨trivial, ⟨trivial, wellFormed_unnestKey⟩, by decide, by decide, by decide, by decide,
    by decide, by decide⟩

end Lengths

end Verax.Unnests
