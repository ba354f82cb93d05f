import Verax.Ranking.RankFusion

/-!
# Fusing filters and limits into ranking windows

The part of `PushdownAndPrunePass.cpp` that rewrites filters, windows of ranking functions, limits and
TopN. The rewriting of every other kind of node is a parameter, `Rewriter`; it returns, as the pass
does for each node, what replaces the columns of the node above it.

* `rewriteWindow`: which conjuncts go below a window, are consumed or stay, and the node chosen.
* `rewriteLimit`, `rewriteTopN`: the bound a limit puts on a window below it.
* `rewrite`: the pass.

Left out: the pruning of columns and of replacements that are no longer output, hints about NULL, and
the simplification of the conjuncts a filter is made of.
-/

namespace Verax.Ranking

open Lib Lib.Rankings Filters

/-! ### Substitutions -/

/-- What a column is replaced by. -/
inductive Replacement
  | column (column : Column)
  | literal (value : Value) (type : SqlType)
  deriving DecidableEq

/-- The expression that replaces a column. -/
def Replacement.expr : Replacement → Expr
  | column c => .column c
  | literal value type => .literal value type

/-- Replacements of columns, resolved: what a column is replaced by is replaced no further.
Source: `PlanSubstitutions.h`. -/
structure Substitutions where
  replacement : Column → Replacement
  type_eq : ∀ c, (replacement c).expr.type = c.type
  resolved : ∀ c d, replacement c = .column d → replacement d = .column d

namespace Substitutions

/-- No column is replaced. -/
def none : Substitutions where
  replacement := .column
  type_eq _ := rfl
  resolved _ _ _ := rfl

/-- Source: `PlanSubstitutions.cpp` `PlanSubstitutions::add`, of a literal. -/
def add (σ : Substitutions) (column : Column) (value : Value) : Substitutions where
  replacement c := if σ.replacement c = .column column then .literal value column.type
    else σ.replacement c
  type_eq c := by
    have h := σ.type_eq c
    split_ifs with hc
    · rw [hc] at h
      exact h
    · exact h
  resolved c d h := by
    have hd : σ.replacement c = .column d ∧ σ.replacement c ≠ .column column := by
      split_ifs at h with hc
      exact ⟨h, hc⟩
    rw [if_neg, σ.resolved c d hd.1]
    rw [σ.resolved c d hd.1, ← hd.1]
    exact hd.2

mutual

/-- Source: `PlanSubstitutions.cpp` `PlanSubstitutions::apply`. -/
def apply (σ : Substitutions) : Expr → Expr
  | .column c => (σ.replacement c).expr
  | .literal value type => .literal value type
  | .field base name type => .field (σ.apply base) name type
  | .call name args type => .call name (σ.applyAll args) type

def applyAll (σ : Substitutions) : Exprs → Exprs
  | .nil => .nil
  | .cons head tail => .cons (σ.apply head) (σ.applyAll tail)

end

/-- The column that replaces a column, unless a literal does. -/
def column? (σ : Substitutions) (c : Column) : Option Column :=
  match σ.replacement c with
  | .column d => some d
  | .literal _ _ => Option.none

end Substitutions

/-! ### Making nodes -/

/-- A node with what replaces the columns of the node it stands for.
Source: `NodeSimplifier.h` `SimplifiedNode`. -/
abbrev SimplifiedNode := Node × Substitutions

/-- Source: `Node.h` `Values::isEmpty`. -/
def Node.isEmpty : Node → Bool
  | .empty _ => true
  | _ => false

/-- The partition keys once replaced: those that are literals or repeated are dropped.
Source: `NodeSimplifier.cpp` `simplifyPartitionKeys`. -/
def simplifyPartitionKeys (σ : Substitutions) (keys : List Column) : List Column :=
  (keys.filterMap σ.column?).eraseDups

/-- Source: `RedundantKeys.cpp` `dropFromSortKeys`, of keys that are not literals. -/
def dropFromSortKeys : List Column → List SortKey → List SortKey
  | _, [] => []
  | seen, key :: keys =>
      if key.column ∈ seen then dropFromSortKeys seen keys
      else key :: dropFromSortKeys (key.column :: seen) keys

/-- An order key once replaced, unless a literal replaces it. -/
def replaceSortKey (σ : Substitutions) (key : SortKey) : Option SortKey :=
  (σ.column? key.column).map fun c => ⟨c, key.orderType⟩

/-- Source: `NodeSimplifier.cpp` `simplifyOrderKeys`. -/
def simplifyOrderKeys (σ : Substitutions) (partitionKeys : List Column) (keys : List SortKey) :
    List SortKey :=
  dropFromSortKeys partitionKeys (keys.filterMap (replaceSortKey σ))

section simplify

variable (catalog : Catalog)

/-- An empty node with the columns of a node. -/
def emptyResult (node : Node) : SimplifiedNode := (.empty (node.outputColumns catalog), .none)

/-- Source: `NodeSimplifier.cpp` `make(RowNumber::Key)`. -/
def makeRowNumber (input : SimplifiedNode) (partitionKeys : List Column) (limit : Option ℕ+)
    (rankColumn : Option Column) : SimplifiedNode :=
  let node := Node.rowNumber input.1 (simplifyPartitionKeys input.2 partitionKeys) limit rankColumn
  if input.1.isEmpty then emptyResult catalog node
  else if rankColumn = none ∧ limit = none then input
  else (node, input.2)

/-- Source: `NodeSimplifier.cpp` `make(TopNRowNumber::Key)`. -/
def makeTopNRowNumber (input : SimplifiedNode) (rankFunction : RankFunction)
    (partitionKeys : List Column) (orderKeys : List SortKey) (limit : ℕ+)
    (rankColumn : Option Column) : SimplifiedNode :=
  let partitionKeys' := simplifyPartitionKeys input.2 partitionKeys
  let orderKeys' := simplifyOrderKeys input.2 partitionKeys' orderKeys
  let node := Node.topNRowNumber input.1 rankFunction partitionKeys' orderKeys' limit rankColumn
  if input.1.isEmpty then emptyResult catalog node
  else if orderKeys' = [] then
    if rankFunction = .rowNumber then
      makeRowNumber catalog input partitionKeys' (some limit) rankColumn
    else
      match rankColumn with
      | some column => (input.1, input.2.add column (rankValue 1))
      | none => input
  else (node, input.2)

/-- Source: `NodeSimplifier.cpp` `make(Window::Key)`. -/
def makeWindow (input : SimplifiedNode) (functions : List (RankFunction × Column))
    (partitionKeys : List Column) (orderKeys : List SortKey) : SimplifiedNode :=
  let partitionKeys' := simplifyPartitionKeys input.2 partitionKeys
  let node := Node.window input.1 functions partitionKeys'
    (simplifyOrderKeys input.2 partitionKeys' orderKeys)
  if input.1.isEmpty then emptyResult catalog node
  else (node, input.2)

/-- Source: `NodeSimplifier.cpp` `make(Limit::Key)`, `originalColumns` being the columns of an empty
result. -/
def makeLimit (input : SimplifiedNode) (originalColumns : List Column) (offset : ℕ) (count : ℕ+) :
    SimplifiedNode :=
  if input.1.isEmpty then (.empty originalColumns, .none)
  else (.limit input.1 offset count, input.2)

/-- Source: `NodeSimplifier.cpp` `make(TopN::Key)`, `originalColumns` being the columns of an empty
result. -/
def makeTopN (input : SimplifiedNode) (originalColumns : List Column) (orderKeys : List SortKey)
    (offset : ℕ) (count : ℕ+) : SimplifiedNode :=
  let orderKeys' := simplifyOrderKeys input.2 [] orderKeys
  if input.1.isEmpty then (.empty originalColumns, .none)
  else if orderKeys' = [] then (.limit input.1 offset count, input.2)
  else (.topN input.1 orderKeys' offset count, input.2)

/-- Source: `PushdownAndPrunePass.cpp` `maybeWrapFilter`. -/
def maybeWrapFilter (body : Node) (conjuncts : List Expr) : Node :=
  if conjuncts = [] ∨ body.isEmpty = true then body else .filter body conjuncts

/-- Source: `PushdownAndPrunePass.cpp` `finishSimplifiedNode`. -/
def finishSimplifiedNode (simplified : SimplifiedNode) (blocked : List Expr) : SimplifiedNode :=
  if simplified.1.isEmpty then (simplified.1, .none)
  else (maybeWrapFilter simplified.1 (blocked.map simplified.2.apply), simplified.2)

end simplify

/-! ### The pass -/

/-- What the pass knows above a node: conjuncts to apply, columns read, columns read not counting
those conjuncts, and the rows of a partition that a limit right above can keep.
Source: `PushdownAndPrunePass.cpp` `PushdownContext`. -/
structure Context where
  pending : List Expr
  required : List Column
  requiredAbove : List Column
  rankLimit : Option ℕ+

/-- The columns read by a list of expressions. -/
def columnsOf (exprs : List Expr) : List Column := exprs.flatMap Expr.columns

section pass

variable (catalog : Catalog)

/-- How a rewriting runs. -/
abbrev Rewriting := Context → Except Error SimplifiedNode

/-- Whether a conjunct reads partition keys only.
Source: `PushdownAndPrunePass.cpp` `rewriteWindow`, the loop, and `blockNondeterministic`. -/
def readsPartitionKeysOnly (partitionKeys : List Column) (conjunct : Expr) : Bool :=
  conjunct.columns ≠ [] ∧ conjunct.columns ⊆ partitionKeys

/-- Whether every row satisfies a conjunct as it ranks first. -/
def holdsAtConstantRank (constantRank : Option Column) (conjunct : Expr) : Except Error Bool :=
  match constantRank with
  | some column => holdsAtRankOne column conjunct
  | none => .ok false

/-- Places a conjunct below or above a window, unless every row satisfies it.
Source: `PushdownAndPrunePass.cpp` `rewriteWindow`, the loop. -/
def placeConjunct (partitionKeys : List Column) (conjunct : Expr) (holds : Bool)
    (split : List Expr × List Expr) : List Expr × List Expr :=
  if holds then split
  else if readsPartitionKeysOnly partitionKeys conjunct then (conjunct :: split.1, split.2)
  else (split.1, conjunct :: split.2)

/-- The conjuncts that can go below a window, and those that stay above.
Source: `PushdownAndPrunePass.cpp` `rewriteWindow`, the loop. -/
def splitConjuncts (partitionKeys : List Column) (fusion : Option RankFusion)
    (constantRank : Option Column) : List Expr → Except Error (List Expr × List Expr)
  | [] => .ok ([], [])
  | conjunct :: rest =>
      if fusion.bind (·.consumedPredicate) = some conjunct then
        splitConjuncts partitionKeys fusion constantRank rest >>= fun split =>
          .ok (split.1, (fusion.bind (·.remainingPredicate)).toList ++ split.2)
      else
        holdsAtConstantRank constantRank conjunct >>= fun holds =>
          splitConjuncts partitionKeys fusion constantRank rest >>= fun split =>
            .ok (placeConjunct partitionKeys conjunct holds split)

/-- Keeps the conjuncts that give a new value each time above.
Source: `PushdownAndPrunePass.cpp` `blockNondeterministic`. -/
def blockNondeterministic (split : List Expr × List Expr) : List Expr × List Expr :=
  (split.1.filter fun conjunct => !catalog.containsNonDeterministic conjunct,
    split.2 ++ split.1.filter fun conjunct => catalog.containsNonDeterministic conjunct)

/-- The parameters of a window. -/
structure WindowKey where
  functions : List (RankFunction × Column)
  partitionKeys : List Column
  orderKeys : List SortKey

/-- Source: `PushdownAndPrunePass.cpp` `specializeRanking`, after the input is rewritten. -/
def specializeRanking (window : WindowKey) (fusion : RankFusion) (outputsKept : List Column)
    (blocked : List Expr) (newInput : SimplifiedNode) : SimplifiedNode :=
  let blocked := blocked.map newInput.2.apply
  let rankColumn := if fusion.rankColumn ∈ outputsKept then some fusion.rankColumn else none
  if window.orderKeys = [] ∧ rankColumn = none ∧ fusion.limit = none then
    (maybeWrapFilter newInput.1 blocked, newInput.2)
  else
    match fusion.limit with
    | some limit =>
        finishSimplifiedNode (makeTopNRowNumber catalog newInput fusion.rankFunction
          window.partitionKeys window.orderKeys limit rankColumn) blocked
    | none =>
        finishSimplifiedNode (makeRowNumber catalog newInput window.partitionKeys none rankColumn)
          blocked

/-- Source: `PushdownAndPrunePass.cpp` `pruneWindowFunctions`, after the input is rewritten. -/
def pruneWindowFunctions (window : WindowKey) (outputsKept : List Column) (blocked : List Expr)
    (newInput : SimplifiedNode) : SimplifiedNode :=
  let survivingFunctions := window.functions.filter (·.2 ∈ outputsKept)
  if survivingFunctions = [] then
    (maybeWrapFilter newInput.1 (blocked.map newInput.2.apply), newInput.2)
  else
    finishSimplifiedNode (makeWindow catalog newInput survivingFunctions window.partitionKeys
      window.orderKeys) blocked

/-- What the pass knows above the input of a window.
Source: `PushdownAndPrunePass.cpp` `rewriteWindow`, `childContext`. -/
def windowChildContext (window : WindowKey) (context : Context) (pushable blocked : List Expr) :
    Context :=
  let required := context.required ++ window.partitionKeys ++ window.orderKeys.map (·.column) ++
    columnsOf blocked ++ columnsOf pushable
  ⟨pushable, required, required, none⟩

/-- A window over its rewritten input.
Source: `PushdownAndPrunePass.cpp` `rewriteWindow`, the end. -/
def finishWindow (window : WindowKey) (fusion : Option RankFusion) (context : Context)
    (blocked : List Expr) (newInput : SimplifiedNode) : SimplifiedNode :=
  let outputsKept := context.required ++ columnsOf blocked
  match fusion with
  | some fusion =>
      finishSimplifiedNode (specializeRanking catalog window fusion outputsKept blocked newInput) []
  | none =>
      finishSimplifiedNode (pruneWindowFunctions catalog window outputsKept blocked newInput) []

/-- Source: `PushdownAndPrunePass.cpp` `rewriteWindow`. -/
def rewriteWindow (rewriteInput : Rewriting) (window : WindowKey) : Rewriting := fun context => do
  let fusion ← detectRankFusion catalog.registry window.functions window.orderKeys context.pending
    context.rankLimit
  let split ← splitConjuncts window.partitionKeys fusion
    (constantRankColumn window.functions window.orderKeys) context.pending
  let split := blockNondeterministic catalog split
  let newInput ← rewriteInput (windowChildContext window context split.1 split.2)
  pure (finishWindow catalog window fusion context split.2 newInput)

/-- Rewrites a node under no conjuncts and filters its rows.
Source: `PushdownAndPrunePass.cpp` `blockAt`. -/
def blockAt (recurse : Rewriting) : Rewriting := fun context => do
  let required := context.required ++ columnsOf context.pending
  let recursed ← recurse ⟨[], required, required, none⟩
  pure (finishSimplifiedNode
    (maybeWrapFilter recursed.1 (context.pending.map recursed.2.apply), recursed.2) [])

/-- The bound that a limit puts on a window below it.
Source: `PushdownAndPrunePass.cpp` `rewriteLimit`, `empty.rankLimit`. -/
def rankLimitOf (offset : ℕ) (count : ℕ+) : Option ℕ+ :=
  if offset + count ≤ maxLimit then some ⟨offset + count, by have := count.pos; omega⟩ else none

def Node.isWindow : Node → Bool
  | .window .. => true
  | _ => false

/-- Whether a node emits what a limit would keep of it.
Source: `PushdownAndPrunePass.cpp` `rewriteLimit`, the check of `newInput`. -/
def keepsFirst (offset : ℕ) (count : ℕ+) : Node → Bool
  | .topNRowNumber _ rankFunction partitionKeys _ limit _ =>
      offset = 0 ∧ partitionKeys = [] ∧ limit = count ∧ rankFunction = .rowNumber
  | _ => false

/-- Source: `PushdownAndPrunePass.cpp` `rewriteLimit`. -/
def rewriteLimit (rewriteInput : Rewriting) (input : Node) (offset : ℕ) (count : ℕ+) : Rewriting :=
  blockAt fun empty => do
    let rankLimit := if input.isWindow then rankLimitOf offset count else none
    let newInput ← rewriteInput { empty with rankLimit }
    if keepsFirst offset count newInput.1 then pure newInput
    else pure (makeLimit newInput (input.outputColumns catalog) offset count)

/-- Whether the node below is a window of the same order keys. -/
def ordersAgree (orderKeys : List SortKey) : Node → Bool
  | .window _ _ _ windowKeys => orderKeys = windowKeys
  | _ => false

/-- Whether a node emits its rows in the order of some keys, `keys` being the expressions of its rows
to sort by. Source: `PushdownAndPrunePass.cpp` `emitsInOrder`. -/
def emitsInOrder : Node → List (Expr × OrderType) → Bool
  | .project input exprs, keys =>
      match keys.mapM fun key => (exprs.find? (.column ·.1 = key.1)).map fun e => (e.2, key.2) with
      | some mapped => emitsInOrder input mapped
      | none => false
  | .window _ _ partitionKeys orderKeys, keys =>
      partitionKeys = [] ∧ keys <+: orderKeys.map fun key => (.column key.column, key.orderType)
  | _, _ => false

/-- A TopN over its rewritten input.
Source: `PushdownAndPrunePass.cpp` `rewriteTopN`, the end. -/
def finishTopN (originalColumns : List Column) (orderKeys : List SortKey) (offset : ℕ) (count : ℕ+)
    (newInput : SimplifiedNode) : SimplifiedNode :=
  match makeTopN newInput originalColumns orderKeys offset count with
  | (.topN input orderKeys' _ _, σ) =>
      if emitsInOrder newInput.1 (orderKeys'.map fun key => (.column key.column, key.orderType)) then
        (.limit newInput.1 offset count, σ)
      else (.topN input orderKeys' offset count, σ)
  | simplified => simplified

/-- Source: `PushdownAndPrunePass.cpp` `rewriteTopN`. -/
def rewriteTopN (rewriteInput : Rewriting) (input : Node) (orderKeys : List SortKey) (offset : ℕ)
    (count : ℕ+) : Rewriting :=
  blockAt fun empty =>
    if (input.outputColumns catalog).all (· ∉ empty.requiredAbove) then do
      let newInput ← rewriteInput empty
      let limit := makeLimit (newInput.1, .none) (newInput.1.outputColumns catalog) offset count
      pure (limit.1, newInput.2)
    else do
      let required := empty.required ++ orderKeys.map (·.column)
      let rankLimit := if ordersAgree orderKeys input then rankLimitOf offset count else none
      let newInput ← rewriteInput ⟨empty.pending, required, required, rankLimit⟩
      pure (finishTopN (input.outputColumns catalog) orderKeys offset count newInput)

/-- **The pass**, given how nodes of the other kinds are rewritten.
Source: `PushdownAndPrunePass.cpp` `rewriteFilter` and the functions above. -/
def rewrite (other : Node → Context → SimplifiedNode) : Node → Rewriting
  | .filter input predicates => fun context =>
      rewrite other input { context with pending := context.pending ++ predicates.flatMap flattenAnd }
  | .window input functions partitionKeys orderKeys =>
      rewriteWindow catalog (rewrite other input) ⟨functions, partitionKeys, orderKeys⟩
  | .limit input offset count => rewriteLimit catalog (rewrite other input) input offset count
  | .topN input orderKeys offset count =>
      rewriteTopN catalog (rewrite other input) input orderKeys offset count
  | node => fun context => .ok (other node context)

end pass

end Verax.Ranking
