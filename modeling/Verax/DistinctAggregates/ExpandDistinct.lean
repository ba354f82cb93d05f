import Verax.DistinctAggregates.Plan
import Verax.Lib.Outcome

/-!
# Lowering DISTINCT aggregates

A DISTINCT call becomes a plain call whose FILTER is a marker, a column that is true on the first
row of each tuple of the grouping keys and the arguments. Calls over one set of keys share a
MarkDistinct node, with one marker for each FILTER.

* `canUseNativeDistinct`: calls that are left to the engine.
* `addAggregate`: the loop that collects the groups of calls and their markers.
* `addMarkDistinct`: the node of a group, with an exchange below it where drivers share its tuples.
* `expandDistinct`: the lowering.
-/

namespace Verax.DistinctAggregates

/-- The checks of the lowering. Their messages are `Expected column or literal aggregate arg` and
`MarkDistinct mask must be a Column reference`. -/
inductive CheckFailure (V : Type) where
  | aggregateArg (arg : Expr V)
  | mask (filter : Option (Expr V))
  deriving DecidableEq

variable {V : Type}

/-! ### Signatures -/

/-- Source: `PlanPhysicalPass.cpp` `unionColumnArgs`. -/
def unionColumnArgs (keys : List Column) (args : List (Expr V)) :
    Except (CheckFailure V) (List Column) :=
  args.foldlM (fun merged arg =>
    match arg with
    | .literal _ => .ok merged
    | .call _ => .error (.aggregateArg arg)
    | .column c => .ok (if c ∈ merged then merged else merged ++ [c])) keys

/-- The arguments that are not literals. -/
def AggregateCall.columnArgs [DecidableEq V] (call : AggregateCall V) : Finset (Expr V) :=
  (call.args.filter fun | .literal _ => false | _ => true).toFinset

/-- The loop of `canUseNativeDistinct`. -/
def sharesSignature [DecidableEq V] : Option (Finset (Expr V)) → List (AggregateCall V) → Bool
  | _, [] => true
  | commonArgs, call :: rest =>
      if !call.isDistinct || call.condition.isSome || !call.orderKeys.isEmpty then false
      else
        match commonArgs with
        | none => sharesSignature (some call.columnArgs) rest
        | some args => if call.columnArgs ≠ args then false else sharesSignature (some args) rest

/-- Source: `PlanPhysicalPass.cpp` `canUseNativeDistinct`. -/
def canUseNativeDistinct [DecidableEq V] (aggregates : List (AggregateCall V)) : Bool :=
  sharesSignature none aggregates

/-! ### Groups of calls -/

/-- The DISTINCT calls over one set of keys: a marker without a mask and one for each FILTER.
Source: `PlanPhysicalPass.cpp` `MarkDistinctGroup`. -/
structure MarkDistinctGroup (V : Type) where
  keys : List Column
  markers : List Column
  masks : List Column
  filterToMarker : List (Option (Expr V) × Column)

namespace MarkDistinctGroup

/-- A new group, with the marker of the calls without a FILTER. -/
def new (keys : List Column) (marker : Column) : MarkDistinctGroup V :=
  ⟨keys, [marker], [], [(none, marker)]⟩

/-- The marker for a FILTER, a fresh one if the FILTER is new. -/
def addFilter [DecidableEq V] (group : MarkDistinctGroup V) (filter : Option (Expr V))
    (nextId : ℕ) : Except (CheckFailure V) (MarkDistinctGroup V × Column × ℕ) :=
  match group.filterToMarker.lookup filter with
  | some marker => .ok (group, marker, nextId)
  | none =>
      match filter with
      | some (.column mask) =>
          .ok ({ group with
            markers := group.markers ++ [⟨nextId⟩]
            masks := group.masks ++ [mask]
            filterToMarker := group.filterToMarker ++ [(filter, ⟨nextId⟩)] }, ⟨nextId⟩, nextId + 1)
      | _ => .error (.mask filter)

end MarkDistinctGroup

/-- The groups, by their sets of keys. -/
abbrev Groups (V : Type) := List (Finset Column × MarkDistinctGroup V)

/-- The marker of a call in the group of its keys, a new group if there is none. -/
def Groups.addCall [DecidableEq V] (keys : List Column) (filter : Option (Expr V)) (nextId : ℕ) :
    Groups V → Except (CheckFailure V) (Groups V × Column × ℕ)
  | [] =>
      ((MarkDistinctGroup.new keys ⟨nextId⟩).addFilter filter (nextId + 1)).map
        fun (group, marker, nextId) => ([(keys.toFinset, group)], marker, nextId)
  | (keySet, group) :: rest =>
      if keySet = keys.toFinset then
        (group.addFilter filter nextId).map
          fun (group, marker, nextId) => ((keySet, group) :: rest, marker, nextId)
      else
        (Groups.addCall keys filter nextId rest).map
          fun (rest, marker, nextId) => ((keySet, group) :: rest, marker, nextId)

/-- The local variables of the loop over the calls. -/
structure Expansion (V : Type) where
  groups : Groups V
  aggregateToMarker : List (AggregateCall V × Column)
  nextId : ℕ

/-- One round of the loop over the calls. -/
def addAggregate [DecidableEq V] (groupingKeys : List Column) (expansion : Expansion V)
    (aggregate : AggregateCall V) : Except (CheckFailure V) (Expansion V) :=
  if !aggregate.isDistinct then .ok expansion
  else do
    let keys ← unionColumnArgs groupingKeys aggregate.args
    if keys.toFinset = groupingKeys.toFinset then .ok expansion
    else
      let (groups, marker, nextId) ←
        expansion.groups.addCall keys aggregate.condition expansion.nextId
      .ok ⟨groups, (aggregate, marker) :: expansion.aggregateToMarker, nextId⟩

/-! ### The plan -/

/-- The node of a group. -/
def addMarkDistinct [DecidableEq V] (base : PhysicalProperties V) (numDrivers : ℕ)
    (currentInput : Node) (group : MarkDistinctGroup V) : Node :=
  if numDrivers > 1 ∧ (currentInput.physicalProperties base).coLocates group.keys = false then
    .markDistinct (.exchange currentInput group.keys) group.markers group.keys group.masks
  else .markDistinct currentInput group.markers group.keys group.masks

/-- A call reads the marker it was given.
Source: `PlanPhysicalPass.cpp` `expandDistinct`, the last loop. -/
def Expansion.rewriteCall [DecidableEq V] (expansion : Expansion V) (aggregate : AggregateCall V) :
    AggregateCall V :=
  match expansion.aggregateToMarker.lookup aggregate with
  | some marker => aggregate.replaceDistinctAndFilterByMarker marker
  | none => aggregate

/-- Lowers the DISTINCT calls of an aggregate over an input with some properties. Columns from
`nextId` on are fresh.
Source: `PlanPhysicalPass.cpp` `expandDistinct`. -/
def expandDistinct [DecidableEq V] (base : PhysicalProperties V) (groupingKeys : List Column)
    (aggregates : List (AggregateCall V)) (numDrivers nextId : ℕ) :
    Except (CheckFailure V) (Node × List (AggregateCall V)) :=
  if aggregates.isEmpty || canUseNativeDistinct aggregates then .ok (.input, aggregates)
  else do
    let expansion ← aggregates.foldlM (addAggregate groupingKeys) ⟨[], [], nextId⟩
    if aggregates.any (·.isDistinct) then
      .ok ((expansion.groups.map Prod.snd).foldl (addMarkDistinct base numDrivers) .input,
        aggregates.map expansion.rewriteCall)
    else .ok (.input, aggregates)

end Verax.DistinctAggregates
