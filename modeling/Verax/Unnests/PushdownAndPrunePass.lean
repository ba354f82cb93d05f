import Verax.Plan.Join
import Verax.Unnests.Plan

/-!
# Pushdown and pruning around unnests

What the pushdown pass does to the nodes between a join and the unnests below it. Columns that a
consumer does not read are pruned, conjuncts move down, columns that turn out to be constant are
replaced, and an unnest of which only duplicates are left becomes a filter.

* `rewrite`: the pass on a tree.
* `allowJoinInputDeduplication`: which input of a join may lose duplicates.
* `rewriteJoinChildren`: the pass on the inputs of a join.

The simplification of expressions, and of projections that only rename, is left out.
-/

namespace Verax.Unnests

variable {V : Type}

/-! ### Contexts and results -/

/-- Source: `PushdownAndPrunePass.cpp` `PushdownContext`, what the nodes of a tree read of it. -/
structure PushdownContext (V : Type) where
  mayDropDuplicates : Bool
  pending : List (Expr V)
  required : Finset Column
  requiredAbove : Finset Column

/-- Values that replace columns.
Source: `PlanSubstitutions.h` `PlanSubstitutions`, literals. -/
abbrev Constants (V : Type) := Column → Option V

/-- A rewritten node with the constants that replace columns it no longer has.
Source: `NodeSimplifier.h` `SimplifiedNode`. -/
structure SimplifiedNode (V : Type) where
  node : Tree V
  substitutions : Constants V

/-- Source: `PlanSubstitutions.cpp` `PlanSubstitutions::apply`. -/
def Constants.apply (constants : Constants V) (e : Expr V) : Expr V :=
  e.subst fun c =>
    match constants c with
    | some value => .literal value
    | none => .column c

/-- Source: `PushdownAndPrunePass.cpp` `partition`. -/
def partition (expressions : List (Expr V)) (columns : Finset Column) :
    List (Expr V) × List (Expr V) :=
  expressions.partition fun e => decide (Disjoint e.columns columns)

/-- Source: `PushdownAndPrunePass.cpp` `blockNondeterministic`. -/
def blockNondeterministic (names : FunctionNames) (pushable blocked : List (Expr V)) :
    List (Expr V) × List (Expr V) :=
  (pushable.filter fun e => !e.containsNonDeterministic names,
    blocked ++ pushable.filter fun e => e.containsNonDeterministic names)

/-- Source: `PushdownAndPrunePass.cpp` `maybeWrapFilter`. -/
def maybeWrapFilter (body : Tree V) (conjuncts : List (Expr V)) : Tree V :=
  if conjuncts.isEmpty then body else .filter body conjuncts

/-- Source: `PushdownAndPrunePass.cpp` `finishSimplifiedNode`. -/
def finishSimplifiedNode (simplified : SimplifiedNode V) (blocked : List (Expr V)) :
    SimplifiedNode V :=
  ⟨maybeWrapFilter simplified.node (blocked.map simplified.substitutions.apply),
    simplified.substitutions⟩

/-- Drops the columns that only a sort reads.
Source: `PushdownAndPrunePass.cpp` `narrowed`; `Node.cpp` `Node::emitsInputColumns`. -/
def narrowed (simplified : SimplifiedNode V) (context : PushdownContext V) : SimplifiedNode V :=
  match simplified.node with
  | .sort child orderKeys =>
      let keep := child.outputColumns.filter (· ∈ context.required)
      if keep.isEmpty || keep.length = child.outputColumns.length then simplified
      else
        ⟨.project (.sort child orderKeys) (keep.map fun c => (c, .column c)),
          simplified.substitutions⟩
  | _ => simplified

/-! ### Simplified nodes -/

/-- A literal with its value. -/
def Expr.literal? : Expr V → Option V
  | .literal value => some value
  | _ => none

/-- Source: `NodeSimplifier.cpp` `NodeSimplifier::make` for a `Values` with one row. -/
def simplifyValues (row : List (Column × V)) : SimplifiedNode V := ⟨.values [], valueOf row⟩

/-- Source: `NodeSimplifier.cpp` `NodeSimplifier::make` for a `Sort`. -/
def simplifySort (input : SimplifiedNode V) (orderKeys : List (Expr V)) : SimplifiedNode V :=
  let orderKeys := (orderKeys.map input.substitutions.apply).filter (·.literal?.isNone)
  if orderKeys.isEmpty then input else ⟨.sort input.node orderKeys, input.substitutions⟩

/-- Source: `NodeSimplifier.cpp` `NodeSimplifier::make` for a `Project`. -/
def simplifyProject (input : SimplifiedNode V) (assignments : List (Column × Expr V)) :
    SimplifiedNode V :=
  let assignments := assignments.map fun a => (a.1, input.substitutions.apply a.2)
  ⟨.project input.node (assignments.filter (·.2.literal?.isNone)), fun c =>
    match (valueOf assignments c) with
    | some (.literal value) => some value
    | some (.call _ _) => none
    | _ => input.substitutions c⟩

/-- Source: `Node.h` `Values::isSingleRowNoColumns`, below the projections of a node. -/
def Tree.isSingleRowNoColumns : Tree V → Bool
  | .values [] => true
  | .project child _ => child.isSingleRowNoColumns
  | _ => false

/-- The result columns of an unnest of literal arrays of one element. -/
def singletonArrays (variants : Variants V) (unnestExpressions : List (Expr V))
    (unnestColumns : List (List Column)) : Option (List (Column × V)) :=
  (unnestExpressions.zip unnestColumns).mapM fun
    | (.literal value, [c]) =>
        match variants.collection value with
        | some [[element]] => some (c, element)
        | _ => none
    | _ => none

/-- An unnest that does not pass on the columns replaced by constants. -/
def UnnestKey.simplified (key : UnnestKey V) (constants : Constants V) : UnnestKey V :=
  { key with
    unnestExpressions := key.unnestExpressions.map constants.apply
    replicatedColumns := key.replicatedColumns.filter fun c => (constants c).isNone
    outputColumns := key.outputColumns.filter fun c =>
      decide (c ∉ key.replicatedColumns) || (constants c).isNone }

/-- The values that an unnest of arrays of one element makes. -/
def UnnestKey.singleRow (key : UnnestKey V) (variants : Variants V)
    (elements : List (Column × V)) : List (Column × V) :=
  elements ++ key.ordinalityColumn.toList.map (·, variants.integer 1) ++
    key.markerColumn.toList.map (·, variants.boolean true)

/-- An unnest of literal arrays of one element over a single row is the row with their elements.
Source: `NodeSimplifier.cpp` `NodeSimplifier::make` for an `Unnest`. -/
def simplifyUnnest (variants : Variants V) (input : SimplifiedNode V) (key : UnnestKey V) :
    SimplifiedNode V :=
  let simplified := key.simplified input.substitutions
  match (if input.node.isSingleRowNoColumns then
    singletonArrays variants simplified.unnestExpressions key.unnestColumns else none) with
  | some elements =>
      ⟨input.node, fun c =>
        (valueOf (key.singleRow variants elements) c).or (input.substitutions c)⟩
  | none => ⟨.unnest input.node simplified, input.substitutions⟩

/-! ### Unnests that only repeat rows -/

/-- Source: `ExprFactory.h` `ExprFactory::orAll`. -/
def orAll : List (Expr V) → Option (Expr V)
  | [] => none
  | e :: es => some (es.foldl (fun result e => .call "__or" [result, e]) e)

/-- Some collection is not empty. -/
def nonEmpty (variants : Variants V) (lte cardinality : String)
    (unnestExpressions : List (Expr V)) : Option (Expr V) :=
  orAll (unnestExpressions.map fun e =>
    .call lte [.literal (variants.integer 1), .call cardinality [e]])

/-! ### The pass -/

/-- The columns of an unnest that its consumer reads. -/
def UnnestKey.pruned (key : UnnestKey V) (outputsKept : Finset Column) : UnnestKey V :=
  { key with
    replicatedColumns := key.replicatedColumns.filter (· ∈ outputsKept)
    ordinalityColumn := key.ordinalityColumn.filter (· ∈ outputsKept)
    outputColumns := key.outputColumns.filter (· ∈ outputsKept) }

/-- The context of the input of an unnest.
Source: `PushdownAndPrunePass.cpp` `rewriteUnnest`, `makeChildContext`. -/
def UnnestKey.childContext (names : FunctionNames) (key : UnnestKey V)
    (context : PushdownContext V) (pushable blocked : List (Expr V)) (collapse : Bool)
    (replicated : List Column) : PushdownContext V :=
  let required := context.required ∪ Expr.columnsAll pushable ∪
    Expr.columnsAll key.unnestExpressions ∪ replicated.toFinset ∪ Expr.columnsAll blocked
  { mayDropDuplicates := collapse && !Expr.anyNonDeterministic names key.unnestExpressions
    pending := pushable
    required := required
    requiredAbove := required }

/-- The pass on a tree. A leaf is rewritten by itself, and keeps the conjuncts above it.
Source: `PushdownAndPrunePass.cpp` `rewriteFilter`, `rewriteProject`, `rewriteSort`,
`rewriteValues`, `rewriteUnnest`. -/
def rewrite (variants : Variants V) (names : FunctionNames) :
    Tree V → PushdownContext V → SimplifiedNode V
  | .leaf columns, context => ⟨maybeWrapFilter (.leaf columns) context.pending, fun _ => none⟩
  | .values row, context =>
      let keep := context.required ∪ Expr.columnsAll context.pending
      finishSimplifiedNode (simplifyValues (row.filter (·.1 ∈ keep))) context.pending
  | .filter child predicates, context =>
      rewrite variants names child { context with pending := context.pending ++ predicates }
  | .sort child orderKeys, context =>
      if Disjoint context.requiredAbove child.outputColumns.toFinset then
        rewrite variants names child context
      else
        let context' := { context with
          required := context.required ∪ Expr.columnsAll orderKeys
          requiredAbove := context.requiredAbove ∪ Expr.columnsAll orderKeys }
        narrowed (simplifySort (rewrite variants names child context') orderKeys) context'
  | .project child assignments, context =>
      let blockedOutputs :=
        (assignments.filter fun a => a.2.containsNonDeterministic names).map Prod.fst
      let (substitutable, blocked) := partition context.pending blockedOutputs.toFinset
      let pushable := substitutable.map
        (Expr.subst fun c => (valueOf assignments c).getD (.column c))
      let outputsKept := context.required ∪ Expr.columnsAll blocked
      let surviving := assignments.filter (·.1 ∈ outputsKept)
      let requiredAbove := Expr.columnsAll (surviving.map Prod.snd)
      let input := rewrite variants names child
        { mayDropDuplicates := context.mayDropDuplicates &&
            !Expr.anyNonDeterministic names (surviving.map Prod.snd)
          pending := pushable
          required := requiredAbove ∪ Expr.columnsAll pushable
          requiredAbove := requiredAbove }
      finishSimplifiedNode (simplifyProject input surviving) blocked
  | .unnest child key, context =>
      let (pushable, overlapping) := partition context.pending key.producedColumns.toFinset
      let (pushable, blocked) := blockNondeterministic names pushable overlapping
      let outputsKept :=
        context.required ∪ Expr.columnsAll blocked ∪ key.markerColumn.toList.toFinset
      let pruned := key.pruned outputsKept
      match (if context.mayDropDuplicates && key.markerColumn.isNone && blocked.isEmpty &&
          decide (Disjoint outputsKept key.producedColumns.toFinset) then
        names.lte.bind fun lte => names.cardinality.map fun cardinality => (lte, cardinality)
      else none) with
      | some (lte, cardinality) =>
          let input := rewrite variants names child
            (key.childContext names context pushable blocked true pruned.replicatedColumns)
          let expressions := key.unnestExpressions.map input.substitutions.apply
          narrowed ⟨.filter input.node (nonEmpty variants lte cardinality expressions).toList,
            input.substitutions⟩ context
      | none =>
          let input := rewrite variants names child
            (key.childContext names context pushable blocked false pruned.replicatedColumns)
          finishSimplifiedNode (simplifyUnnest variants input pruned) blocked

/-! ### Joins -/

/-- Predicates and keys grouped by where they are evaluated.
Source: `JoinPredicatePlacement.h` `JoinPredicatePlacement::Routed`. -/
structure Routed (V : Type) where
  leftInputPredicates : List (Expr V)
  rightInputPredicates : List (Expr V)
  leftKeys : List (Expr V)
  rightKeys : List (Expr V)
  joinPredicates : List (Expr V)

/-- A join whose predicates are routed and whose output is pruned.
Source: `Node.h` `Join::Key`; `PushdownAndPrunePass.cpp` `PrunedJoin`. -/
structure Join (V : Type) where
  joinType : JoinType
  routed : Routed V
  nullAware : Bool
  nullAsValue : Bool
  outputColumns : List Column
  sourceColumns : List Column

/-- Source: `PushdownAndPrunePass.cpp` `makeJoinInputContext`. -/
def makeJoinInputContext (pending : List (Expr V)) (required : Finset Column) :
    PushdownContext V where
  mayDropDuplicates := false
  pending := pending
  required := required ∪ Expr.columnsAll pending
  requiredAbove := required

/-- Source: `PushdownAndPrunePass.cpp` `allowJoinInputDeduplication`. -/
def allowJoinInputDeduplication (names : FunctionNames) (joinType : JoinType)
    (leftKeys rightKeys filter : List (Expr V)) (leftContext rightContext : PushdownContext V) :
    PushdownContext V × PushdownContext V :=
  if Expr.anyNonDeterministic names leftKeys || Expr.anyNonDeterministic names rightKeys ||
      Expr.anyNonDeterministic names filter then (leftContext, rightContext)
  else
    match joinType with
    | .leftSemiFilter | .leftSemiProject | .anti =>
        (leftContext, { rightContext with mayDropDuplicates := true })
    | .rightSemiFilter | .rightSemiProject | .rightAnti =>
        ({ leftContext with mayDropDuplicates := true }, rightContext)
    | _ => (leftContext, rightContext)

namespace Join

variable (join : Join V)

/-- The columns that the join reads of its inputs. -/
def sideRequired : Finset Column :=
  join.sourceColumns.toFinset ∪ Expr.columnsAll join.routed.leftKeys ∪
    Expr.columnsAll join.routed.rightKeys ∪ Expr.columnsAll join.routed.joinPredicates

/-- The contexts of the inputs of a join. -/
def inputContexts (names : FunctionNames) : PushdownContext V × PushdownContext V :=
  allowJoinInputDeduplication names join.joinType join.routed.leftKeys join.routed.rightKeys
    join.routed.joinPredicates
    (makeJoinInputContext join.routed.leftInputPredicates join.sideRequired)
    (makeJoinInputContext join.routed.rightInputPredicates join.sideRequired)

end Join

/-- Source: `PushdownAndPrunePass.cpp` `rewriteJoinChildren`, `rewriteJoinInputNodes`. -/
def rewriteJoinChildren (variants : Variants V) (names : FunctionNames) (join : Join V)
    (left right : Tree V) : SimplifiedNode V × SimplifiedNode V :=
  let (leftContext, rightContext) := join.inputContexts names
  (rewrite variants names left leftContext, rewrite variants names right rightContext)

end Verax.Unnests
