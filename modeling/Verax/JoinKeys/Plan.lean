import Mathlib.Logic.Relation
import Verax.Plan.Join

/-!
# Plans with joins

The nodes a join is made of, the bags of rows they can deliver, and the equalities of columns that a
node enforces on its rows.

* `Join`, `Node`: the parameters of a join, and nodes.
* `Run.Delivers`: the bags of rows a node can deliver.
* `Node.Equates`: columns that filters and inner joins at a node or below make equal.

An expression has one value on a row.
-/

namespace Verax.JoinKeys

open Lib Lib.BagJoin

/-! ### Nodes -/

/-- A column, by the number of the expression that it is. -/
abbrev Column := ℕ

/-- An expression: a column, an equality of columns, or any other. -/
inductive Expr
  | column (column : Column)
  | equality (left right : Column)
  | other (id : ℕ)
  deriving DecidableEq

/-- The parameters of a join other than its inputs; the keys stand in pairs.
Source: `Node.h` `Join::Key`. -/
structure Join where
  joinType : JoinType
  keys : List (Expr × Expr)
  filter : List Expr
  nullAware : Bool
  nullAsValue : Bool
  outputColumns : List Column
  sourceColumns : List Column
  deriving DecidableEq

/-- A node of one input and its columns, of which it passes some on unchanged. -/
structure Operator where
  id : ℕ
  outputColumns : List Column
  passed : List Column
  deriving DecidableEq

/-- Plan nodes. A `source` has no input, or several, such as a union.
Source: `Node.h`. -/
inductive Node
  | source (id : ℕ) (outputColumns : List Column)
  | operator (operator : Operator) (input : Node)
  | project (input : Node) (exprs : List (Column × Expr))
  | filter (input : Node) (predicates : List Expr)
  | join (left right : Node) (join : Join)
  deriving DecidableEq

namespace Join

variable (J : Join)

/-- Source: `Node.h` `Join::Key::effectiveSourceColumns`. -/
def effectiveSourceColumns : List Column :=
  if J.sourceColumns = [] then J.outputColumns else J.sourceColumns

/-- Source: `Node.h` `Join::nullKeysMatch`. -/
def nullKeysMatch : Bool := J.nullAware || J.nullAsValue

/-- The output column that holds the mark of a semi-project join.
Source: `Node.cpp` `projectsMark`. -/
def markColumn : Option Column :=
  if J.joinType = .leftSemiProject ∨ J.joinType = .rightSemiProject then J.outputColumns.getLast?
  else none

/-- The input column that supplies an output column. -/
def sourceOf (c : Column) : Option Column :=
  if J.markColumn = some c then none
  else ((J.outputColumns.zip J.effectiveSourceColumns).find? (·.1 = c)).map Prod.snd

/-- The pairs of keys that are columns. -/
def columnPairs : List (Column × Column) :=
  J.keys.filterMap fun
    | (.column l, .column r) => some (l, r)
    | _ => none

lemma mem_columnPairs {l r : Column} :
    (l, r) ∈ J.columnPairs ↔ (Expr.column l, Expr.column r) ∈ J.keys := by
  rw [columnPairs, List.mem_filterMap]
  constructor
  · rintro ⟨⟨x, y⟩, hmem, h⟩
    cases x <;> cases y <;> simp_all
  · exact fun h => ⟨_, h, rfl⟩

end Join

namespace Node

/-- Source: `Node.h` `Node::outputColumns`. -/
def outputColumns : Node → List Column
  | source _ columns => columns
  | operator op _ => op.outputColumns
  | project _ exprs => exprs.map Prod.fst
  | filter input _ => input.outputColumns
  | join _ _ J => J.outputColumns

/-- An input column of a join, on its side: it is taken from the left input if it is there. -/
def side (left : Node) (c : Column) : Column ⊕ Column :=
  if c ∈ left.outputColumns then .inl c else .inr c

end Node

/-! ### Rows -/

/-- A value for each column, none being NULL. -/
abbrev Row (V : Type) := Column → Option V

/-- A database and the engine that runs a query on it: what nodes of other kinds deliver, the values
of other expressions, and what equality compares of a value, if anything. Values of different types
are different values. -/
structure Run (V : Type) where
  rows : ℕ → Set (Multiset (Row V))
  operate : Operator → Multiset (Row V) → Set (Multiset (Row V))
  passes : ∀ op bag, ∀ out ∈ operate op bag, ∀ row' ∈ out,
    (∃ row ∈ bag, ∀ c ∈ op.passed, row' c = row c) ∨ ∀ c ∈ op.passed, row' c = none
  value : ℕ → Row V → Option V
  key : V → Option V
  ofTruth : Truth → Option V
  truth : Option V → Truth
  truth_ofTruth : ∀ t, truth (ofTruth t) = t

variable {V : Type}

/-- The value of a column of a joined pair of rows, NULL where there is no row. -/
def valueAt (l r : Option (Row V)) : Column ⊕ Column → Option V
  | .inl c => l.bind (· c)
  | .inr c => r.bind (· c)

namespace Run

variable [DecidableEq V] (run : Run V)

/-- What equality compares of a column in a row. -/
def columnKey (row : Row V) (c : Column) : Option V := (row c).bind run.key

/-- The value of an expression. An equality is unknown of NULL. -/
def eval (row : Row V) : Expr → Option V
  | .column c => row c
  | .equality l r => run.ofTruth (Truth.eq (run.columnKey row l) (run.columnKey row r))
  | .other id => run.value id row

/-- What a join compares of a key. -/
def keyOf (e : Expr) (row : Row V) : Option V := (run.eval row e).bind run.key

/-- Whether a row meets all conditions. -/
def Accepts (predicates : List Expr) (row : Row V) : Prop :=
  ∀ p ∈ predicates, run.truth (run.eval row p) = some true

instance (predicates : List Expr) : DecidablePred (run.Accepts predicates) := fun row =>
  inferInstanceAs (Decidable (∀ p ∈ predicates, run.truth (run.eval row p) = some true))

/-- The output row for a pair of rows and a mark. -/
def outputRow (left : Node) (J : Join) (l r : Option (Row V)) (mark : Truth) : Row V := fun c =>
  if J.markColumn = some c then run.ofTruth mark
  else (J.sourceOf c).bind fun s => valueAt l r (left.side s)

/-- The join as an operation on bags. -/
def spec (left : Node) (J : Join) : JoinSpec (Row V) V where
  joinType := J.joinType
  leftKeys := J.keys.map fun k => run.keyOf k.1
  rightKeys := J.keys.map fun k => run.keyOf k.2
  filter := J.filter.map fun e l r =>
    run.truth (run.eval (fun c => valueAt (some l) (some r) (left.side c)) e)
  nullAware := J.nullAware
  nullAsValue := J.nullAsValue
  output := run.outputRow left J

/-- The row a projection makes of a row. -/
def projectRow (exprs : List (Column × Expr)) (row : Row V) : Row V := fun c =>
  (exprs.find? (·.1 = c)).bind fun e => run.eval row e.2

/-- **The bags of rows a node can deliver.** -/
def Delivers : Node → Set (Multiset (Row V))
  | .source id _ => run.rows id
  | .operator op input => {out | ∃ bag ∈ Delivers input, out ∈ run.operate op bag}
  | .project input exprs => {out | ∃ bag ∈ Delivers input, out = bag.map (run.projectRow exprs)}
  | .filter input predicates =>
      {out | ∃ bag ∈ Delivers input, out = bag.filter (run.Accepts predicates)}
  | .join left right J => {out | ∃ A ∈ Delivers left, ∃ B ∈ Delivers right,
      out ∈ (run.spec left J).outcomes A B}

end Run

/-! ### Equal columns -/

/-- Columns of the inputs of an inner join that one key pair compares. -/
def Join.Compares (J : Join) : Column ⊕ Column → Column ⊕ Column → Prop
  | .inl l, .inr r => J.joinType = .inner ∧ (l, r) ∈ J.columnPairs
  | _, _ => False

/-- Columns of one input of a join, as the input relates them. -/
def OnSide (left right : Column → Column → Prop) : Column ⊕ Column → Column ⊕ Column → Prop
  | .inl c, .inl d => left c d
  | .inr c, .inr d => right c d
  | _, _ => False

/-- Columns of the inputs of a join that the inputs and the keys of the join connect. -/
def Join.Connects (J : Join) (left right : Column → Column → Prop) :
    Column ⊕ Column → Column ⊕ Column → Prop :=
  Relation.EqvGen fun x y => OnSide left right x y ∨ J.Compares x y

/-- **Columns that a node makes equal**: filters and the keys of inner joins, at the node or below,
connect them. -/
def Node.Equates : Node → Column → Column → Prop
  | source _ _, c, d => c = d
  | operator op input, c, d => c = d ∨ c ∈ op.passed ∧ d ∈ op.passed ∧ input.Equates c d
  | project input exprs, c, d => c = d ∨ ∃ c' d', exprs.find? (·.1 = c) = some (c, .column c') ∧
      exprs.find? (·.1 = d) = some (d, .column d') ∧ input.Equates c' d'
  | filter input predicates, c, d => Relation.EqvGen
      (fun x y => input.Equates x y ∨ Expr.equality x y ∈ predicates) c d
  | join left right J, c, d => c = d ∨ ∃ s t, J.sourceOf c = some s ∧ J.sourceOf d = some t ∧
      J.Connects left.Equates right.Equates (left.side s) (left.side t)

end Verax.JoinKeys
