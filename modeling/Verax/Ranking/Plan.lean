import Mathlib.Data.PNat.Basic
import Verax.Filters.ExprSimplifier
import Verax.Lib.Rankings

/-!
# Plans with ranking windows

The plan nodes the fusion of ranking functions reads and makes, and the row sequences each can
deliver. A row holds a value for every column; a node that computes a column writes it.

* `Node`: windows of ranking functions, what they become, and the filters and limits above them.
* `Run.Delivers`: the sequences a node can deliver. Where a query does not fix the order of rows, any
  order can come; when the plan runs, a window of one partition delivers its rows sorted.

Values are in one partition when they are equal. Window functions other than the ranking functions,
and the columns that a node does not output, are left out.
-/

namespace Verax.Ranking

open Lib Lib.Rankings Filters

/-! ### Nodes -/

/-- Source: `Schema.h` `OrderType`. -/
inductive OrderType
  | ascNullsFirst | ascNullsLast | descNullsFirst | descNullsLast
  deriving DecidableEq

/-- An order key with its order type. -/
structure SortKey where
  column : Column
  orderType : OrderType
  deriving DecidableEq

/-- Plan nodes. `source` is any node of another kind, and `empty` a Values without rows. A limit keeps
at least one row: a LIMIT 0 is an empty Values before this pass.
Source: `Node.h`. -/
inductive Node
  | source (id : ℕ)
  | empty (outputColumns : List Column)
  | filter (input : Node) (predicates : List Expr)
  | project (input : Node) (exprs : List (Column × Expr))
  | window (input : Node) (functions : List (RankFunction × Column)) (partitionKeys : List Column)
      (orderKeys : List SortKey)
  | topNRowNumber (input : Node) (rankFunction : RankFunction) (partitionKeys : List Column)
      (orderKeys : List SortKey) (limit : ℕ+) (rankColumn : Option Column)
  | rowNumber (input : Node) (partitionKeys : List Column) (limit : Option ℕ+)
      (rankColumn : Option Column)
  | limit (input : Node) (offset : ℕ) (count : ℕ+)
  | topN (input : Node) (orderKeys : List SortKey) (offset : ℕ) (count : ℕ+)

/-- What is known of the other nodes and of the functions: the columns another node outputs and those
it or its rewritten form may compute, the order in which expressions were made, and the functions
that give a new value each time. -/
structure Catalog where
  outputColumns : ℕ → List Column
  scope : ℕ → Set Column
  output_scope : ∀ id, ∀ c ∈ outputColumns id, c ∈ scope id
  registry : Registry
  nonDeterministic : String → Bool

namespace Catalog

variable (catalog : Catalog)

mutual

/-- Source: `QueryGraph.h` `Expr::containsNonDeterministic`. -/
def containsNonDeterministic : Expr → Bool
  | .column _ => false
  | .literal _ _ => false
  | .field base _ _ => containsNonDeterministic base
  | .call (.named f) args _ => catalog.nonDeterministic f || anyNonDeterministic args
  | .call _ args _ => anyNonDeterministic args

def anyNonDeterministic : Exprs → Bool
  | .nil => false
  | .cons head tail => containsNonDeterministic head || anyNonDeterministic tail

end

end Catalog

namespace Node

variable (catalog : Catalog)

/-- Source: `Node.h` `Node::outputColumns`. -/
def outputColumns : Node → List Column
  | source id => catalog.outputColumns id
  | empty columns => columns
  | filter input _ => input.outputColumns
  | project _ exprs => exprs.map Prod.fst
  | window input functions _ _ => input.outputColumns ++ functions.map Prod.snd
  | topNRowNumber input _ _ _ _ rankColumn => input.outputColumns ++ rankColumn.toList
  | rowNumber input _ _ rankColumn => input.outputColumns ++ rankColumn.toList
  | limit input _ _ => input.outputColumns
  | topN input _ _ _ => input.outputColumns

/-- The columns computed at a node or below. -/
def scope : Node → Set Column
  | source id => catalog.scope id
  | empty columns => {c | c ∈ columns}
  | filter input _ => input.scope
  | project input exprs => input.scope ∪ {c | c ∈ exprs.map Prod.fst}
  | window input functions _ _ => input.scope ∪ {c | c ∈ functions.map Prod.snd}
  | topNRowNumber input _ _ _ _ rankColumn => input.scope ∪ {c | c ∈ rankColumn.toList}
  | rowNumber input _ _ rankColumn => input.scope ∪ {c | c ∈ rankColumn.toList}
  | limit input _ _ => input.scope
  | topN input _ _ _ => input.scope

/-- The columns output are computed at the node or below. -/
lemma mem_scope : ∀ (node : Node) {c : Column},
    c ∈ node.outputColumns catalog → c ∈ node.scope catalog
  | source id, c, h => catalog.output_scope id c h
  | empty _, _, h => h
  | filter input _, _, h => mem_scope input h
  | project _ _, _, h => .inr h
  | window input _ _ _, _, h => (List.mem_append.mp h).imp (mem_scope input) id
  | topNRowNumber input _ _ _ _ _, _, h => (List.mem_append.mp h).imp (mem_scope input) id
  | rowNumber input _ _ _, _, h => (List.mem_append.mp h).imp (mem_scope input) id
  | limit input _ _, _, h => mem_scope input h
  | topN input _ _ _, _, h => mem_scope input h

end Node

/-! ### Rows -/

lemma fits_rank {n : ℕ} (h : (n : ℤ) ≤ 2 ^ 63 - 1) : -2 ^ 63 ≤ (n : ℤ) ∧ (n : ℤ) ≤ 2 ^ 63 - 1 := by
  omega

/-- A number as a value of a rank column. -/
def rankValue (n : ℕ) : Value :=
  if h : (n : ℤ) ≤ 2 ^ 63 - 1 then .integral ⟨n, fits_rank h⟩ else .null

/-- The engine of a session, with what the other nodes deliver and the order of values of each order
type. Functions that give a new value each time make several engines, one of which evaluates the
conditions on a row; the other expressions have the same value in all. -/
structure Run (catalog : Catalog) where
  rows : ℕ → Set (List Row)
  engines : Set Engine
  nonempty : engines.Nonempty
  deterministic : ∀ expr, catalog.containsNonDeterministic expr = false → ∀ e ∈ engines,
    ∀ e' ∈ engines, ∀ row, e.eval row expr = e'.eval row expr
  compare : OrderType → Value → Value → Bool
  total : ∀ type a b, compare type a b || compare type b a
  trans : ∀ type a b c, compare type a b → compare type b c → compare type a c
  peers : ∀ type type' a b, compare type a b → compare type b a → compare type' a b

/-- In the same partition. -/
def samePartition (partitionKeys : List Column) (r s : Row) : Bool :=
  partitionKeys.all fun c => r c = s c

/-- A row with numbers in the columns of ranking functions. -/
def writeNumbers (number : RankFunction → ℕ) : List (RankFunction × Column) → Row → Row
  | [], row => row
  | f :: functions, row =>
      writeNumbers number functions (Function.update row f.2 (rankValue (number f.1)))

/-- A row with the numbers of the ranking functions, given the rows of its partition before it. -/
def numberRow (le : Row → Row → Bool) (functions : List (RankFunction × Column))
    (x : List Row × Row) : Row :=
  writeNumbers (fun fn => fn.value le x.1 x.2) functions x.2

/-- Whether a row's number is within a bound. -/
def within (le : Row → Row → Bool) (bound : Option (RankFunction × ℕ+)) (x : List Row × Row) : Bool :=
  bound.all fun b => b.1.value le x.1 x.2 ≤ (b.2 : ℕ)

variable {catalog : Catalog}

namespace Run

variable (run : Run catalog)

/-- The order of rows that order keys define. -/
def sortLe : List SortKey → Row → Row → Bool
  | [], _, _ => true
  | key :: keys, r, s =>
      if run.compare key.orderType (r key.column) (s key.column) then
        if run.compare key.orderType (s key.column) (r key.column) then sortLe keys r s else true
      else false

/-- The rows that pass a filter, each row's conditions being evaluated by one of the engines. -/
inductive Filtered (predicates : List Expr) : List Row → List Row → Prop
  | nil : Filtered predicates [] []
  | keep {row : Row} {rows kept : List Row} (engine : Engine) : engine ∈ run.engines →
      (∀ p ∈ predicates, engine.accepts row p) → Filtered predicates rows kept →
      Filtered predicates (row :: rows) (row :: kept)
  | drop {row : Row} {rows kept : List Row} (engine : Engine) : engine ∈ run.engines →
      ¬(∀ p ∈ predicates, engine.accepts row p) → Filtered predicates rows kept →
      Filtered predicates (row :: rows) kept

/-- The rows with their numbers, in some arrangement of the partitions, as far as they are within a
bound, in any order. -/
def Ranked (partitionKeys : List Column) (orderKeys : List SortKey)
    (functions : List (RankFunction × Column)) (bound : Option (RankFunction × ℕ+))
    (rows out : List Row) : Prop :=
  ∃ arranged : List Row, arranged.Perm rows ∧
    Arranged (samePartition partitionKeys) (run.sortLe orderKeys) arranged ∧
    out.Perm (((withEarlier (samePartition partitionKeys) [] arranged).filter
      (within (run.sortLe orderKeys) bound)).map (numberRow (run.sortLe orderKeys) functions))

/-- A row and its projection; a column is passed on. -/
def Projects (exprs : List (Column × Expr)) (row row' : Row) : Prop :=
  ∃ engine ∈ run.engines, ∀ c, row' c =
    match exprs.find? (·.1 = c) with
    | some (_, .column d) => row d
    | some (_, e) => engine.eval row e
    | none => .null

/-- **The row sequences a node can deliver.** A plan that runs delivers the rows of a window of one
partition in order; as a query, it may return them in any order. -/
def Delivers (runs : Bool) : Node → Set (List Row)
  | .source id => run.rows id
  | .empty _ => {[]}
  | .filter input predicates => {out | ∃ l ∈ Delivers runs input, run.Filtered predicates l out}
  | .project input exprs =>
      {out | ∃ l ∈ Delivers runs input, List.Forall₂ (run.Projects exprs) l out}
  | .window input functions partitionKeys orderKeys =>
      {out | (∃ l ∈ Delivers runs input, run.Ranked partitionKeys orderKeys functions none l out) ∧
        (runs = true → partitionKeys = [] →
          out.Pairwise fun r s => run.sortLe orderKeys r s = true)}
  | .topNRowNumber input rankFunction partitionKeys orderKeys limit rankColumn =>
      {out | ∃ l ∈ Delivers runs input, run.Ranked partitionKeys orderKeys
        (rankColumn.toList.map (rankFunction, ·)) (some (rankFunction, limit)) l out}
  | .rowNumber input partitionKeys limit rankColumn =>
      {out | ∃ l ∈ Delivers runs input, run.Ranked partitionKeys []
        (rankColumn.toList.map (.rowNumber, ·)) (limit.map (.rowNumber, ·)) l out}
  | .limit input offset count =>
      {out | ∃ l ∈ Delivers runs input, out = (l.drop offset).take count}
  | .topN input orderKeys offset count =>
      {out | ∃ l ∈ Delivers runs input, ∃ sorted : List Row, sorted.Perm l ∧
        (sorted.Pairwise fun r s => run.sortLe orderKeys r s = true) ∧
        out = (sorted.drop offset).take count}

end Run

end Verax.Ranking
