import Verax.JoinKeys.Plan
import Verax.Lib.MergedClasses

/-!
# Making joins

`Builder::make` as far as joins depend on it. Classes of columns are known to the whole query: an
inner join puts the two columns of each of its key pairs in one class. Where that merges classes, the
join filters each input by equalities between its columns of such a class, and drops the key pairs
that these make redundant.

* `normalizeKey`: a join as it is made.
* `Builder.make`, `Builder.makeAll`: making one node, and one after the other.

A node made again is the node made before, as nodes are compared by what they are made of.
-/

namespace Verax.JoinKeys

open Lib

/-- Source: `QueryGraph.h` `Expr::containsNonDeterministic`. -/
abbrev NonDeterministic := Expr → Bool

/-! ### Filters -/

section filters

variable (nonDeterministic : NonDeterministic)

/-- Source: `Builder.cpp` `dropRepeatedPredicates`, after the predicates seen. -/
def dropRepeatedPredicates : List Expr → List Expr → List Expr
  | _, [] => []
  | seen, predicate :: predicates =>
      if nonDeterministic predicate then
        predicate :: dropRepeatedPredicates seen predicates
      else if predicate ∈ seen then dropRepeatedPredicates seen predicates
      else predicate :: dropRepeatedPredicates (predicate :: seen) predicates

/-- A filter as it is made.
Source: `Builder.cpp` `Builder::normalizeKey(Filter::Key&)`. -/
def makeFilter (input : Node) (predicates : List Expr) : Node :=
  .filter input (dropRepeatedPredicates nonDeterministic [] predicates)

/-- The predicates of the filters that top a node.
Source: `Builder.cpp` `withNewConjuncts`, `applied`. -/
def applied : Node → List Expr
  | .filter input predicates => predicates ++ applied input
  | _ => []

/-- Source: `Builder.cpp` `withNewConjuncts`. -/
def withNewConjuncts (input : Node) (conjuncts : List Expr) : Node :=
  let fresh := conjuncts.filter (· ∉ applied input)
  if fresh = [] then input else makeFilter nonDeterministic input fresh

end filters

/-! ### Implied equalities -/

/-- Columns of one class, the first one first. -/
abbrev ClassColumns := ℕ × List Column

/-- Source: `Builder.cpp` `withImpliedEqualities`, the search in `byClass`. -/
def addToClass (equivalence : ℕ) (column : Column) : List ClassColumns → List ClassColumns
  | [] => [(equivalence, [column])]
  | entry :: entries =>
      if entry.1 = equivalence then (entry.1, entry.2 ++ [column]) :: entries
      else entry :: addToClass equivalence column entries

/-- The columns of each merged class.
Source: `Builder.cpp` `withImpliedEqualities`, `byClass`. -/
def byClass (equivalence : Column → Option ℕ) (merged : List ℕ) (columns : List Column) :
    List ClassColumns :=
  columns.foldl (fun entries column =>
    match equivalence column with
    | some e => if e ∈ merged then addToClass e column entries else entries
    | none => entries) []

/-- An equality, the older column on its left.
Source: `ExprFactory.cpp` `makeEq`, `Builder.cpp` `canonicalizeCall`. -/
def makeEq (left right : Column) : Expr :=
  if right < left then .equality right left else .equality left right

/-- Source: `Builder.cpp` `withImpliedEqualities`, `conjuncts`. -/
def equalities : List Column → List Expr
  | [] => []
  | first :: rest => rest.map (makeEq first)

/-- Source: `Builder.cpp` `ColumnAnchors`. -/
abbrev ColumnAnchors := List (Column × Column)

/-- Source: `Builder.cpp` `withImpliedEqualities`, `enforced`. -/
def anchors : List Column → ColumnAnchors
  | [] => []
  | first :: rest => rest.flatMap fun column => [(first, first), (column, first)]

/-- Source: `Builder.cpp` `withImpliedEqualities`. -/
def withImpliedEqualities (nonDeterministic : NonDeterministic) (input : Node)
    (equivalence : Column → Option ℕ) (merged : List ℕ) : Node × ColumnAnchors :=
  let entries := byClass equivalence merged input.outputColumns
  (withNewConjuncts nonDeterministic input (entries.flatMap fun entry => equalities entry.2),
    entries.flatMap fun entry => anchors entry.2)

/-- The column a column is equated to. -/
def ColumnAnchors.find (enforced : ColumnAnchors) (column : Column) : Option Column :=
  (List.find? (·.1 = column) enforced).map Prod.snd

/-- Source: `Builder.cpp` `isEnforcedEqual`. -/
def isEnforcedEqual (enforced : ColumnAnchors) (left right : Expr) : Bool :=
  if left = right then true
  else
    match left, right with
    | .column l, .column r => (enforced.find l).isSome ∧ enforced.find l = enforced.find r
    | _, _ => false

/-- Source: `Builder.cpp` `dropEnforcedKeyPairs`, the loop, after the pairs kept. -/
def dropEnforced (leftEnforced rightEnforced : ColumnAnchors) :
    List (Expr × Expr) → List (Expr × Expr) → List (Expr × Expr)
  | kept, [] => kept
  | kept, pair :: pairs =>
      if kept.any fun k => isEnforcedEqual leftEnforced k.1 pair.1 &&
          isEnforcedEqual rightEnforced k.2 pair.2 then
        dropEnforced leftEnforced rightEnforced kept pairs
      else dropEnforced leftEnforced rightEnforced (kept ++ [pair]) pairs

/-- Source: `Builder.cpp` `dropEnforcedKeyPairs`. -/
def dropEnforcedKeyPairs (leftEnforced rightEnforced : ColumnAnchors) (keys : List (Expr × Expr)) :
    List (Expr × Expr) :=
  if leftEnforced = [] ∧ rightEnforced = [] then keys
  else dropEnforced leftEnforced rightEnforced [] keys

/-! ### Joins -/

section joins

variable (nonDeterministic : NonDeterministic)

/-- A pair stays where it stands first.
Source: `Builder.cpp` `dropRepeatedKeyPairs`. -/
def dropRepeatedKeyPairs (J : Join) : Join := { J with keys := J.keys.eraseDups }

/-- A join with what its key pairs imply of its inputs.
Source: `Builder.cpp` `Builder::normalizeKey(Join::Key&)`, the end. -/
def withImpliedInputs (left right : Node) (J : Join) (equivalence : Column → Option ℕ)
    (merged : List ℕ) : Node :=
  let newLeft := withImpliedEqualities nonDeterministic left equivalence merged
  let newRight := withImpliedEqualities nonDeterministic right equivalence merged
  .join newLeft.1 newRight.1 { J with keys := dropEnforcedKeyPairs newLeft.2 newRight.2 J.keys }

/-- **A join as it is made.** The classes take in the key pairs of an inner join; `Column::equals`
merges the classes of two columns.
Source: `Builder.cpp` `Builder::normalizeKey(Join::Key&)`, `QueryGraph.cpp` `Column::equals`. -/
def normalizeKey (classes : Classes Column) (left right : Node) (J : Join) : Node × Classes Column :=
  let J := dropRepeatedKeyPairs J
  if J.joinType ≠ .inner then (.join left right J, classes)
  else
    let merged := classes.mergeAll J.columnPairs
    if merged.1 = [] ∨ J.nullKeysMatch = true then (.join left right J, merged.2)
    else (withImpliedInputs nonDeterministic left right J merged.2.classOf merged.1, merged.2)

end joins

/-! ### Sequences of nodes -/

/-- A node asked for. -/
inductive Request
  | source (id : ℕ) (outputColumns : List Column)
  | operator (operator : Operator) (input : Node)
  | project (input : Node) (exprs : List (Column × Expr))
  | filter (input : Node) (predicates : List Expr)
  | join (left right : Node) (join : Join)

namespace Request

/-- The node, as it is asked for. -/
def node : Request → Node
  | source id columns => .source id columns
  | operator op input => .operator op input
  | project input exprs => .project input exprs
  | filter input predicates => .filter input predicates
  | join left right J => .join left right J

/-- The inputs of a node. -/
def inputs : Request → List Node
  | source _ _ => []
  | operator _ input => [input]
  | project input _ => [input]
  | filter input _ => [input]
  | join left right _ => [left, right]

end Request

/-- The classes of columns, and the nodes made so far.
Source: `Builder.h` `Builder`. -/
structure Builder where
  classes : Classes Column
  nodes : List Node

namespace Builder

variable (nonDeterministic : NonDeterministic)

/-- Before any node is made. -/
def start : Builder := ⟨.empty, []⟩

/-- The node made, and the classes then.
Source: `Builder.h` `Builder::make`. -/
def makeNode (builder : Builder) : Request → Node × Classes Column
  | .filter input predicates => (makeFilter nonDeterministic input predicates, builder.classes)
  | .join left right J => normalizeKey nonDeterministic builder.classes left right J
  | request => (request.node, builder.classes)

/-- Source: `Builder.h` `Builder::make`. -/
def make (builder : Builder) (request : Request) : Node × Builder :=
  let made := makeNode nonDeterministic builder request
  (made.1, ⟨made.2, made.1 :: builder.nodes⟩)

/-- Nodes made one after the other, each with what was asked for. -/
def makeAll (builder : Builder) : List Request → List (Request × Node)
  | [] => []
  | request :: requests =>
      let made := make nonDeterministic builder request
      (request, made.1) :: makeAll made.2 requests

end Builder

end Verax.JoinKeys
