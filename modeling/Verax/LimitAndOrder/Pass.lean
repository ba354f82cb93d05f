import Verax.LimitAndOrder.Plan

/-!
# Limits and orders

The rewriter of `LimitAndOrderPass.cpp`. A walk from the root carries the row bound the consumer
imposes (`pending`) and whether the order of rows reaches the query output (`orderPreserved`). The
context is shared along the walk, as in the source: a hook sees what rewriting its earlier inputs
left in it.

Each hook takes the rewriting of its input as an argument; `rewrite` ties them together. The sums of
offsets and counts are those of natural numbers; where they exceed 64 bits the source has no defined
result.
-/

namespace Verax.LimitAndOrder

/-- State threaded top-down. Source: `LimitAndOrderPass.cpp` `LimitContext`. -/
@[ext] structure LimitContext where
  pending : Option LimitBound
  orderPreserved : Bool
  deriving DecidableEq

/-- Composes two bounds: `inner` is applied first, then `outer` on its output.
Source: `LimitAndOrderPass.cpp` `collapse`. -/
def collapse (outer inner : LimitBound) : LimitBound where
  offset := inner.offset + outer.offset
  count :=
    if inner.count = kNoCount then outer.count
    else
      let afterOuterOffset := inner.count - outer.offset
      if outer.count = kNoCount then afterOuterOffset else min outer.count afterOuterOffset

variable {ρ κ : Type}

/-- A single `row_number` with no ORDER BY. Source: `LimitAndOrderPass.cpp`
`isUnorderedRowNumber`. -/
def isUnorderedRowNumber (W : WindowSpec ρ κ) : Bool :=
  W.orderKeys.isNone &&
    match W.functions with
    | [.rowNumber _] => true
    | _ => false

/-- The join only asks of its right side whether it has a row.
Source: `LimitAndOrderPass.cpp` `readsRightForExistenceOnly`. -/
def readsRightForExistenceOnly (J : JoinSpec ρ κ) : Bool :=
  (J.joinType = .leftSemiFilter || J.joinType = .leftSemiProject || J.joinType = .anti) &&
    J.leftKeys.isEmpty && J.filter.isEmpty && !J.nullAware

/-- Wraps a node in a Limit carrying the bound. Source: `LimitAndOrderPass.cpp` `materialize`. -/
def materialize (pending : Option LimitBound) (node : Node ρ κ) : Node ρ κ :=
  match pending with
  | none => node
  | some bound => .limit node bound.offset bound.count

/-- Source: `Builder.h` `makeEmptyValues`. -/
def makeEmptyValues : Node ρ κ := .values []

/-- A projection over an input, folded into the input where it is a projection itself and `inlines`.
Source: `PrecomputeProjections.cpp` `inlineInputProject`. -/
def inlineInputProject (inlines : Bool) (input : Node ρ κ) (exprs : ρ → ρ) : Node ρ κ :=
  match inlines, input with
  | true, .project child inner => .project child (exprs ∘ inner)
  | _, _ => .project input exprs

/-- A rewritten node and the context left behind. -/
abbrev Rewritten (ρ κ : Type) := Node ρ κ × LimitContext

/-- Rewriting an input under a context. -/
abbrev Rewrite (ρ κ : Type) := LimitContext → Rewritten ρ κ

/-! ### Hooks -/

/-- The pending bound folded into that of a Limit. Source: `LimitAndOrderPass.cpp` `rewriteLimit`,
`bound`. -/
def foldedBound (pending : Option LimitBound) (here : LimitBound) : LimitBound :=
  match pending with
  | some pending => collapse pending here
  | none => here

/-- Source: `LimitAndOrderPass.cpp` `rewriteLimit`. -/
def rewriteLimit (rewriteInput : Rewrite ρ κ) (here : LimitBound) : Rewrite ρ κ := fun context =>
  let bound := foldedBound context.pending here
  if bound.count = 0 then (makeEmptyValues, context)
  else rewriteInput { context with pending := some bound }

/-- Source: `LimitAndOrderPass.cpp` `rewriteSort`. -/
def rewriteSort (rewriteInput : Rewrite ρ κ) (order : SortOrder ρ) : Rewrite ρ κ := fun context =>
  let dropSort := context.pending.isNone && !context.orderPreserved
  let r := rewriteInput ⟨none, false⟩
  match context.pending with
  | some pending =>
    if pending.count ≠ kNoCount then (.topN r.1 order pending.offset pending.count, r.2)
    else (materialize (some pending) (.sort r.1 order), r.2)
  | none => if dropSort then r else (.sort r.1 order, r.2)

/-- Source: `LimitAndOrderPass.cpp` `rewriteTopN`. -/
def rewriteTopN (rewriteInput : Rewrite ρ κ) (order : SortOrder ρ) (here : LimitBound) :
    Rewrite ρ κ := fun context =>
  let r := rewriteInput ⟨none, false⟩
  match context.pending with
  | some pending =>
    let folded := collapse pending here
    if folded.count = 0 then (makeEmptyValues, r.2)
    else (.topN r.1 order folded.offset folded.count, r.2)
  | none => (.topN r.1 order here.offset here.count, r.2)

/-- The bound each leg of a union is rewritten under. Source: `LimitAndOrderPass.cpp`
`rewriteUnionAll`, `legBound`. -/
def legBound (pending : Option LimitBound) : Option LimitBound :=
  match pending with
  | some bound => if bound.count = kNoCount then none else some ⟨0, bound.offset + bound.count⟩
  | none => none

/-- Source: `LimitAndOrderPass.cpp` `rewriteUnionAll`. -/
def rewriteUnionAll (rewriteLegs : Option LimitBound → List (Node ρ κ)) (legColumns : List (ρ → ρ)) :
    Rewrite ρ κ := fun context =>
  (materialize context.pending (.unionAll (rewriteLegs (legBound context.pending)) legColumns),
    { context with pending := none })

/-- Source: `LimitAndOrderPass.cpp` `rewriteEnforceSingleRow`. -/
def rewriteEnforceSingleRow (rewriteInput : Rewrite ρ κ) (output : Option ρ → ρ) : Rewrite ρ κ :=
  fun context =>
  let r := rewriteInput { context with pending := none }
  let bound := context.pending.filter (0 < ·.offset)
  (materialize bound (.enforceSingleRow r.1 output), r.2)

/-- A bound stays above the node. Source: `LimitAndOrderPass.cpp` `LIMIT_BARRIER`. -/
def limitBarrier (preservesOrder : Bool) (base : Rewrite ρ κ) : Rewrite ρ κ := fun context =>
  let r := base ⟨none, context.orderPreserved && preservesOrder⟩
  (materialize context.pending r.1, r.2)

/-- Source: `LimitAndOrderPass.cpp` `rewriteScan`. -/
def rewriteScan (rows : List ρ) : Rewrite ρ κ := limitBarrier true fun context => (.scan rows, context)

/-- Source: `LimitAndOrderPass.cpp` `rewriteValues`. -/
def rewriteValues (rows : List ρ) : Rewrite ρ κ :=
  limitBarrier true fun context => (.values rows, context)

/-- Source: `LimitAndOrderPass.cpp` `rewriteWorkingTable`. -/
def rewriteWorkingTable (name : ℕ) (read : StateRead) (present : ρ → ρ) : Rewrite ρ κ :=
  limitBarrier true fun context => (.workingTable name read present, context)

/-- A base hook of one input: rewrites the input and rebuilds the node. Source: `NodeRewriter.h`. -/
def rebuild (rewriteInput : Rewrite ρ κ) (make : Node ρ κ → Node ρ κ) : Rewrite ρ κ :=
  fun context =>
  let r := rewriteInput context
  (make r.1, r.2)

/-- Source: `LimitAndOrderPass.cpp` `rewriteFilter`. -/
def rewriteFilter (rewriteInput : Rewrite ρ κ) (predicates : List (ρ → Lib.Truth)) : Rewrite ρ κ :=
  limitBarrier true (rebuild rewriteInput (.filter · predicates))

/-- Unnest passes its input's order through. Source: `LimitAndOrderPass.cpp` `rewriteUnnest`. -/
def rewriteUnnest (rewriteInput : Rewrite ρ κ) (expand : ρ → List ρ) : Rewrite ρ κ :=
  limitBarrier true (rebuild rewriteInput (.unnest · expand))

/-- Source: `NodeRewriter.h` `rewriteProject`. -/
def rewriteProject (inlines : Node ρ κ → Bool) (rewriteInput : Rewrite ρ κ) (exprs : ρ → ρ) :
    Rewrite ρ κ := rebuild rewriteInput fun input => inlineInputProject (inlines input) input exprs

/-- Source: `NodeRewriter.h` `rewriteInference`. -/
def rewriteInference (rewriteInput : Rewrite ρ κ) (call : ρ → ρ) : Rewrite ρ κ :=
  rebuild rewriteInput (.inference · call)

/-- Source: `NodeRewriter.h` `rewriteAssignUniqueId`. -/
def rewriteAssignUniqueId (rewriteInput : Rewrite ρ κ) (idColumn : ℕ → ρ → ρ) : Rewrite ρ κ :=
  rebuild rewriteInput (.assignUniqueId · idColumn)

/-- The bound the right side of a join is rewritten under. Source: `LimitAndOrderPass.cpp`
`rewriteJoin`. -/
def rightBound (spec : JoinSpec ρ κ) : Option LimitBound :=
  if readsRightForExistenceOnly spec then some ⟨0, 1⟩ else none

/-- Source: `LimitAndOrderPass.cpp` `rewriteJoin`. -/
def rewriteJoin (rewriteLeft rewriteRight : Rewrite ρ κ) (spec : JoinSpec ρ κ) : Rewrite ρ κ :=
  fun context =>
  let left := rewriteLeft ⟨none, false⟩
  let right := rewriteRight ⟨rightBound spec, false⟩
  (materialize context.pending (.join left.1 right.1 spec), left.2)

/-- Source: `LimitAndOrderPass.cpp` `rewriteWindow`. -/
def rewriteWindow (rewriteInput : Rewrite ρ κ) (spec : WindowSpec ρ κ) : Rewrite ρ κ :=
  fun context =>
  if isUnorderedRowNumber spec then
    rebuild rewriteInput (.window · spec) { context with orderPreserved := false }
  else
    let r := rebuild rewriteInput (.window · spec) ⟨none, false⟩
    (materialize context.pending r.1, r.2)

/-- Aggregate, GroupId, EnforceDistinct, TopNRowNumber, Exchange, Repeat and FixedPoint: the inputs
are rewritten one after the other under one context. Source: `LimitAndOrderPass.cpp`
`LIMIT_BARRIER`, `NodeRewriter.h`. -/
def rewriteBarrier (rewriteInputs : LimitContext → List (Node ρ κ) × LimitContext)
    (operator : Operator ρ κ) : Rewrite ρ κ :=
  limitBarrier false fun context =>
    let r := rewriteInputs context
    (.barrier r.1 operator, r.2)

/-! ### The pass -/

/-- Whether the rewriter folds a projection into its rewritten input, given the original input: it
does so only if the input was rebuilt and no expression would be evaluated twice. What the rewritten
plan delivers does not depend on it. -/
abbrev Inlines (ρ κ : Type) := Node ρ κ → Node ρ κ → Bool

variable (inlines : Inlines ρ κ)

mutual

/-- Dispatches to the hook of the node. Source: `NodeRewriter.h` `rewrite`. -/
def rewrite : Node ρ κ → Rewrite ρ κ
  | .scan rows => rewriteScan rows
  | .values rows => rewriteValues rows
  | .workingTable name read present => rewriteWorkingTable name read present
  | .filter input predicates => rewriteFilter (rewrite input) predicates
  | .project input exprs => rewriteProject (inlines input) (rewrite input) exprs
  | .inference input call => rewriteInference (rewrite input) call
  | .assignUniqueId input idColumn => rewriteAssignUniqueId (rewrite input) idColumn
  | .unnest input expand => rewriteUnnest (rewrite input) expand
  | .enforceSingleRow input output => rewriteEnforceSingleRow (rewrite input) output
  | .limit input offset count => rewriteLimit (rewrite input) ⟨offset, count⟩
  | .sort input order => rewriteSort (rewrite input) order
  | .topN input order offset count => rewriteTopN (rewrite input) order ⟨offset, count⟩
  | .unionAll inputs legColumns => rewriteUnionAll (rewriteLegs inputs) legColumns
  | .join left right spec => rewriteJoin (rewrite left) (rewrite right) spec
  | .window input spec => rewriteWindow (rewrite input) spec
  | .barrier inputs operator => rewriteBarrier (rewriteInputs inputs) operator

/-- The legs of a union, each under a context of its own. Source: `LimitAndOrderPass.cpp`
`rewriteUnionAll`. -/
def rewriteLegs : List (Node ρ κ) → Option LimitBound → List (Node ρ κ)
  | [], _ => []
  | leg :: legs, bound => (rewrite leg ⟨bound, false⟩).1 :: rewriteLegs legs bound

/-- The inputs of a node, one after the other under one context. Source: `NodeRewriter.h`. -/
def rewriteInputs : List (Node ρ κ) → LimitContext → List (Node ρ κ) × LimitContext
  | [], context => ([], context)
  | input :: inputs, context =>
    let r := rewrite input context
    let rest := rewriteInputs inputs r.2
    (r.1 :: rest.1, rest.2)

end

/-- The whole pass. Source: `LimitAndOrderPass.cpp` `LimitAndOrderPass::run`. -/
def run (root : Node ρ κ) : Node ρ κ := (rewrite inlines root ⟨none, true⟩).1

end Verax.LimitAndOrder
