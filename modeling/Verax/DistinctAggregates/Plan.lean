import Mathlib.Data.Finset.Dedup
import Verax.Lib.Representatives

/-!
# Aggregates over distinct rows

The part of a plan that the lowering of DISTINCT aggregates builds, and what an aggregate computes.
The rows of a task are spread across drivers. What the engine computes for an aggregate function or
another expression is a parameter, `Engine`, and so is which values it takes for the same: NULL is
the same as NULL.

* `AggregateCall.Evaluates`: what a call computes over rows; over one row of each distinct tuple of
  its arguments if it is DISTINCT.
* `Node`: exchanges and MarkDistinct nodes over an input; `Node.Runs`: what they do to rows.
* `PhysicalProperties.coLocates`: when rows that agree on some columns share a driver.
-/

namespace Verax.DistinctAggregates

open Lib.Representatives

/-! ### Calls -/

/-- Source: `QueryGraph.h` `Column`. -/
structure Column where
  id : ℕ
  deriving DecidableEq

/-- An expression; aggregates take columns and literals.
Source: `QueryGraph.h` `Expr`. -/
inductive Expr (V : Type) where
  | column (column : Column)
  | literal (value : V)
  | call (text : String)
  deriving DecidableEq

/-- Source: `QueryGraph.h` `OrderType`. -/
structure OrderType where
  ascending : Bool
  nullsFirst : Bool
  deriving DecidableEq

/-- Source: `QueryGraph.h` `Aggregate`. -/
structure AggregateCall (V : Type) where
  name : String
  args : List (Expr V)
  isDistinct : Bool
  condition : Option (Expr V)
  orderKeys : List (Expr V)
  orderTypes : List OrderType
  deriving DecidableEq

/-- Source: `QueryGraph.cpp` `Aggregate::replaceDistinctAndFilterByMarker`. -/
def AggregateCall.replaceDistinctAndFilterByMarker {V : Type} (call : AggregateCall V)
    (marker : Column) : AggregateCall V :=
  { call with isDistinct := false, condition := some (.column marker) }

/-! ### What a call computes -/

/-- A value for each column. -/
abbrev Row (V : Type) := Column → V

/-- What the query engine computes: Booleans, other expressions, and aggregate functions over a bag
of tuples of arguments with their sort keys. -/
structure Engine (V : Type) where
  truth : V → Bool
  boolean : Bool → V
  truth_boolean : ∀ b, truth (boolean b) = b
  call : String → Row V → V
  aggregate : String → List OrderType → Multiset (List V × List V) → V

variable {V : Type} [Setoid V] [DecidableRel fun v w : V => v ≈ w]

/-- Two tuples are the same. -/
def SameTuple (v w : List V) : Prop := List.Forall₂ (· ≈ ·) v w

instance : DecidableRel (SameTuple (V := V)) := fun v w =>
  inferInstanceAs (Decidable (List.Forall₂ (fun a b : V => a ≈ b) v w))

omit [DecidableRel fun v w : V => v ≈ w] in
lemma sameTuple_equivalence : Equivalence (SameTuple (V := V)) where
  refl v := List.forall₂_same.mpr fun a _ => Setoid.refl a
  symm h := List.Forall₂.flip (h.imp fun _ _ hab => Setoid.symm hab)
  trans := by
    intro u v w huv hvw
    induction huv generalizing w with
    | nil => exact hvw
    | cons hab _ ih =>
        cases hvw with
        | cons hbc hrest => exact .cons (Setoid.trans hab hbc) (ih hrest)

/-- Two rows agree on some columns, NULL being the same as NULL. -/
def SameKeys (keys : List Column) (row row' : Row V) : Prop := ∀ c ∈ keys, row c ≈ row' c

instance (keys : List Column) : DecidableRel (SameKeys (V := V) keys) := fun row row' =>
  inferInstanceAs (Decidable (∀ c ∈ keys, row c ≈ row' c))

omit [DecidableRel fun v w : V => v ≈ w] in
lemma sameKeys_equivalence (keys : List Column) : Equivalence (SameKeys (V := V) keys) where
  refl _ _ _ := Setoid.refl _
  symm h c hc := Setoid.symm (h c hc)
  trans h h' c hc := Setoid.trans (h c hc) (h' c hc)

namespace Engine

variable (engine : Engine V)

/-- The value of an expression. -/
def eval (row : Row V) : Expr V → V
  | .column c => row c
  | .literal value => value
  | .call text => engine.call text row

/-- A row passes a FILTER. -/
def accepts (condition : Option (Expr V)) (row : Row V) : Bool :=
  match condition with
  | none => true
  | some e => engine.truth (engine.eval row e)

end Engine

namespace AggregateCall

variable (engine : Engine V) (call : AggregateCall V)

/-- What the rows that pass the FILTER give a call: arguments and sort keys. -/
def contributions (rows : Multiset (Row V)) : Multiset (List V × List V) :=
  (rows.filter fun row => engine.accepts call.condition row = true).map fun row =>
    (call.args.map (engine.eval row), call.orderKeys.map (engine.eval row))

/-- A call computes a value over rows. A DISTINCT call reads one row of each distinct tuple of its
arguments among those that pass its FILTER, and which one is not said. -/
def Evaluates (rows : Multiset (Row V)) (value : V) : Prop :=
  if call.isDistinct then
    ∃ chosen, Represents (fun p q => SameTuple p.1 q.1) chosen (call.contributions engine rows) ∧
      value = engine.aggregate call.name call.orderTypes chosen
  else value = engine.aggregate call.name call.orderTypes (call.contributions engine rows)

end AggregateCall

/-- The rows of a group. -/
def groupOf (groupingKeys : List Column) (key : List V) (rows : Multiset (Row V)) :
    Multiset (Row V) :=
  rows.filter fun row => SameTuple (groupingKeys.map row) key

/-- The keys of a group. Without keys there is one group, which may be empty. -/
def IsKey (groupingKeys : List Column) (rows : Multiset (Row V)) (key : List V) : Prop :=
  key = [] ∧ groupingKeys = [] ∨ ∃ row ∈ rows, groupingKeys.map row = key

/-- A row an aggregate gives: the keys of a group, and a value for each call over the rows of the
group. -/
structure GivesRow (engine : Engine V) (groupingKeys : List Column)
    (aggregates : List (AggregateCall V)) (rows : Multiset (Row V)) (key values : List V) :
    Prop where
  isKey : IsKey groupingKeys rows key
  evaluates : List.Forall₂ (fun call value => call.Evaluates engine (groupOf groupingKeys key rows)
    value) aggregates values

/-! ### Nodes -/

/-- An input with exchanges between drivers and MarkDistinct nodes above it. A MarkDistinct puts its
columns after those of its input.
Source: `Node.h` `Exchange`, `MarkDistinct`. -/
inductive Node where
  | input
  | exchange (input : Node) (keys : List Column)
  | markDistinct (input : Node) (markers distinctKeys masks : List Column)
  deriving DecidableEq

/-- The FILTER each marker is for: none, and then each mask.
Source: `Node.h` `MarkDistinct`, the class comment. -/
def markerFilters (markers masks : List Column) : List (Option Column × Column) :=
  (none :: masks.map some).zip markers

/-- A row passes a mask. -/
def passesMask (engine : Engine V) (mask : Option Column) (row : Row V) : Bool :=
  match mask with
  | none => true
  | some c => engine.truth (row c)

/-- A row with its markers: true on the first row of each tuple among those that pass the mask. -/
def markRow (engine : Engine V) (markers distinctKeys masks : List Column) (seen : List (Row V))
    (row : Row V) : Row V :=
  fun c =>
    match (markerFilters markers masks).find? fun p => p.2 = c with
    | some (mask, _) =>
        engine.boolean (isFirst (SameKeys distinctKeys) (passesMask engine mask) seen row)
    | none => row c

/-- Rows that agree on some columns are on one driver. -/
def CoLocated (keys : List Column) (drivers : List (List (Row V))) : Prop :=
  drivers.Pairwise fun rows rows' => ∀ row ∈ rows, ∀ row' ∈ rows', ¬ SameKeys keys row row'

/-- What the nodes make of the rows of the input. An exchange takes the rows to any drivers, those
that agree on the keys to one; a driver marks rows in the order in which they come. -/
def Node.Runs (engine : Engine V) (numDrivers : ℕ) :
    Node → List (List (Row V)) → List (List (Row V)) → Prop
  | .input, drivers, output => output = drivers
  | .exchange child keys, drivers, output =>
      ∃ middle, child.Runs engine numDrivers drivers middle ∧
        output.flatten.Perm middle.flatten ∧ CoLocated keys output ∧ output.length ≤ numDrivers
  | .markDistinct child markers distinctKeys masks, drivers, output =>
      ∃ middle, child.Runs engine numDrivers drivers middle ∧
        output = middle.map (mapSeen (markRow engine markers distinctKeys masks) [])

/-! ### Physical properties -/

/-- How the rows of a task are spread across its drivers.
Source: `PhysicalProperties.h` `Partitioning`, at driver scope. -/
inductive Partitioning (V : Type) where
  | unspecified
  | partitioned (keys : List (Expr V))
  | gather
  | broadcast
  | arbitrary
  deriving DecidableEq

/-- Source: `PhysicalProperties.h` `PhysicalProperties`, what is read at driver scope. -/
structure PhysicalProperties (V : Type) where
  driverPartition : Partitioning V
  globalUnique : List (Finset Column)

/-- Source: `PhysicalProperties.cpp` `Partitioning::coLocates`. -/
def Partitioning.coLocates [DecidableEq V] (partition : Partitioning V) (columns : List Column) :
    Bool :=
  match partition with
  | .partitioned keys => decide (keys ≠ []) && keys.all (· ∈ columns.map Expr.column)
  | _ => false

/-- Source: `PhysicalProperties.cpp` `PhysicalProperties::coLocates`, at driver scope. -/
def PhysicalProperties.coLocates [DecidableEq V] (properties : PhysicalProperties V)
    (keys : List Column) : Bool :=
  decide (properties.driverPartition = .gather) ||
    decide (keys ≠ []) && properties.driverPartition.coLocates keys ||
    properties.globalUnique.any (· ⊆ keys.toFinset)

/-- The properties of a node over an input with some properties.
Source: `Node.cpp` `Exchange::Exchange`, `passThroughPhysical`. -/
def Node.physicalProperties (base : PhysicalProperties V) : Node → PhysicalProperties V
  | .input => base
  | .exchange child keys =>
      ⟨.partitioned (keys.map .column), (child.physicalProperties base).globalUnique⟩
  | .markDistinct child _ _ _ => child.physicalProperties base

/-- What properties say of rows.
Source: `PhysicalProperties.h`, the comments of `PartitionKind` and `PhysicalProperties`. -/
structure PhysicalProperties.Holds (engine : Engine V) (properties : PhysicalProperties V)
    (drivers : List (List (Row V))) : Prop where
  gather : properties.driverPartition = .gather →
    drivers.Pairwise fun rows rows' => rows = [] ∨ rows' = []
  partitioned : ∀ keys, properties.driverPartition = .partitioned keys →
    drivers.Pairwise fun rows rows' => ∀ row ∈ rows, ∀ row' ∈ rows',
      ¬ SameTuple (keys.map (engine.eval row)) (keys.map (engine.eval row'))
  unique : ∀ key ∈ properties.globalUnique,
    drivers.flatten.Pairwise fun row row' => ¬ ∀ c ∈ key, row c ≈ row' c

end Verax.DistinctAggregates
