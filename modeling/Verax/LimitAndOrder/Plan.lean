import Verax.Plan.Join
import Verax.Lib.Deliveries

/-!
# Plans and the rows they deliver

The plan nodes that reach `LimitAndOrderPass.cpp`, and for each plan the row sequences it can
deliver (`Delivers`). Expressions are functions of a row. Sort and TopN deliver sorted rows, ties in
any order; Filter, Project, Inference, Unnest, Limit, AssignUniqueId and EnforceSingleRow keep the
order of their input; all other nodes read their inputs in any order and deliver their rows in any
order. A plan that raises delivers nothing.

Left out: nodes of other stages (an Apply is gone by then; MarkDistinct, RowNumber, IndexLookupJoin,
and partial limits and sorts belong to physical plans), and TableWrite, a root that hands the context
on to its input.
-/

namespace Verax.LimitAndOrder

open Verax.Lib Verax.Lib.Deliveries

/-! ### Parameters of the nodes -/

/-- The comparison that `orderKeys` and `orderTypes` define. -/
structure SortOrder (ρ : Type) where
  le : ρ → ρ → Bool
  total : ∀ a b, le a b || le b a
  trans : ∀ a b c, le a b → le b c → le a c

/-- A window function: `row_number`, or one computed from the rows of the partition, in its order,
and the position of the row. -/
inductive WindowFunction (ρ κ : Type)
  | rowNumber (number : ℕ → κ)
  | other (value : List ρ → ℕ → Option κ)

/-- The value of a window function. -/
def WindowFunction.value {ρ κ : Type} : WindowFunction ρ κ → List ρ → ℕ → Option κ
  | rowNumber number, _, i => some (number (i + 1))
  | other value, rows, i => value rows i

/-- The parameters of a window. Source: `Node.h` `Window::Key`. -/
structure WindowSpec (ρ κ : Type) where
  functions : List (WindowFunction ρ κ)
  partitionKeys : ρ → List (Option κ)
  orderKeys : Option (SortOrder ρ)
  output : ρ → List (Option κ) → ρ

namespace WindowSpec

variable {ρ κ : Type} [DecidableEq κ] (W : WindowSpec ρ κ)

/-- The rows of a row's partition with their arrival positions, in the window's order. -/
def partition (rows : List ρ) (row : ρ) : List (ρ × ℕ) :=
  let members := rows.zipIdx.filter fun q => W.partitionKeys q.1 = W.partitionKeys row
  match W.orderKeys with
  | none => members
  | some order => members.insertionSort (fun p q => order.le p.1 q.1 = true)

/-- The output row for the row that arrived at a position. -/
def outputRow (rows : List ρ) (q : ρ × ℕ) : ρ :=
  let members := W.partition rows q.1
  W.output q.1 (W.functions.map (·.value (members.map Prod.fst) (members.findIdx (·.2 = q.2))))

/-- The output for rows in the order they arrive. -/
def compute (rows : List ρ) : List ρ := rows.zipIdx.map (W.outputRow rows)

end WindowSpec

/-- What a read of a loop's state returns. Source: `Node.h` `WorkingTable`. -/
inductive StateRead
  | latestDelta | accumulated
  deriving DecidableEq

/-- The state of the enclosing loops: of each, the rows of the last iteration and all rows. -/
abbrev State (ρ : Type) := ℕ → List ρ × List ρ

/-- What a loop returns. Source: `Node.h` `FixedPoint`. -/
inductive LoopMode
  | append | replace
  deriving DecidableEq

/-- The parameters of a loop. `present` gives the rows of a branch the names of the output columns,
and `converged` reads the row of the convergence branch. Source: `Node.h` `FixedPoint::Key`. -/
structure LoopSpec (ρ : Type) where
  name : ℕ
  maxIterations : ℕ
  failAtBound : Bool
  mode : LoopMode
  present : ρ → ρ
  converged : ρ → Bool

/-- The operators that deliver their rows in any order, read their inputs in any order, and are
treated alike by the pass. Source: `LimitAndOrderPass.cpp` `LIMIT_BARRIER`. -/
inductive Operator (ρ κ : Type)
  | aggregate (groups : List ρ → List ρ)
  | groupId (replicate : ρ → List ρ)
  | enforceDistinct (distinctKeys : ρ → List (Option κ))
  | topNRowNumber (ranked : List ρ → List ρ)
  | exchange
  | repeatHops (walks : List ρ → List ρ → List ρ → List ρ)
  | fixedPoint (loop : LoopSpec ρ)

/-! ### Plans -/

/-- Plan nodes. A count of `kNoCount` stands for no bound. Source: `Node.h`. -/
inductive Node (ρ κ : Type)
  | scan (rows : List ρ)
  | values (rows : List ρ)
  | workingTable (name : ℕ) (read : StateRead) (present : ρ → ρ)
  | filter (input : Node ρ κ) (predicates : List (ρ → Truth))
  | project (input : Node ρ κ) (exprs : ρ → ρ)
  | inference (input : Node ρ κ) (call : ρ → ρ)
  | assignUniqueId (input : Node ρ κ) (idColumn : ℕ → ρ → ρ)
  | unnest (input : Node ρ κ) (expand : ρ → List ρ)
  | enforceSingleRow (input : Node ρ κ) (output : Option ρ → ρ)
  | limit (input : Node ρ κ) (offset count : ℕ)
  | sort (input : Node ρ κ) (order : SortOrder ρ)
  | topN (input : Node ρ κ) (order : SortOrder ρ) (offset count : ℕ)
  | unionAll (inputs : List (Node ρ κ)) (legColumns : List (ρ → ρ))
  | join (left right : Node ρ κ) (spec : JoinSpec ρ κ)
  | window (input : Node ρ κ) (spec : WindowSpec ρ κ)
  | barrier (inputs : List (Node ρ κ)) (operator : Operator ρ κ)

/-- A count of this value means no row bound. Source: `LimitAndOrderPass.cpp` `kNoCount`. -/
def kNoCount : ℕ := 2 ^ 63 - 1

/-- A row bound: skip `offset` rows, then emit up to `count`.
Source: `LimitAndOrderPass.cpp` `LimitBound`. -/
structure LimitBound where
  offset : ℕ
  count : ℕ
  deriving DecidableEq

/-- The rows a bound selects. -/
def LimitBound.cut (b : LimitBound) : Cut :=
  ⟨b.offset, if b.count = kNoCount then none else some b.count⟩

/-! ### Deliveries -/

/-- The row sequences delivered, in each state of the enclosing loops. -/
abbrev Den (ρ : Type) := State ρ → Set (List ρ)

variable {ρ κ : Type} [DecidableEq κ]

/-- The rows computed from the inputs' rows in the order they arrive; a duplicate key raises. A walk
whose last input is missing ends at a start row. Loops are not computed from rows. -/
def Operator.compute : Operator ρ κ → List (List ρ) → Option (List ρ)
  | aggregate groups, [rows] => some (groups rows)
  | groupId replicate, [rows] => some (rows.flatMap replicate)
  | enforceDistinct distinctKeys, [rows] =>
    if (rows.map distinctKeys).Nodup then some rows else none
  | topNRowNumber ranked, [rows] => some (ranked rows)
  | exchange, [rows] => some rows
  | repeatHops walks, [start, hop] => some (walks start hop start)
  | repeatHops walks, [start, hop, goal] => some (walks start hop goal)
  | _, _ => none

/-- The state inside a loop. -/
def State.enter (st : State ρ) (name : ℕ) (latest all : List ρ) : State ρ :=
  fun n => if n = name then (latest, all) else st n

namespace LoopSpec

variable (loop : LoopSpec ρ)

/-- Rows a branch delivers, in any order, under the names of the output columns. -/
def Presents (branch : Set (List ρ)) (rows : List ρ) : Prop :=
  ∃ delivered ∈ branch, rows.Perm (delivered.map loop.present)

/-- All rows after an iteration. -/
def grow (all next : List ρ) : List ρ :=
  match loop.mode with
  | .append => all ++ next
  | .replace => next

/-- Whether the loop stops after an iteration: by its convergence branch, or when the iteration added
no rows. -/
def Stops (convergence : Option (Den ρ)) (st : State ρ) (next all : List ρ) (stop : Bool) : Prop :=
  match convergence with
  | none => stop = next.isEmpty
  | some branch => ∃ row, [row] ∈ branch (st.enter loop.name next all) ∧ stop = loop.converged row

/-- Iterations of a loop from its latest rows and all rows to what it returns, with a number of
iterations left. Source: `Node.h` `FixedPoint`. -/
inductive Iterates (step : Den ρ) (convergence : Option (Den ρ)) (st : State ρ) :
    ℕ → List ρ → List ρ → List ρ → Prop
  | bound {latest all : List ρ} : loop.failAtBound = false → Iterates step convergence st 0 latest all all
  | stop {left : ℕ} {latest all next : List ρ} :
      loop.Presents (step (st.enter loop.name latest all)) next →
      loop.Stops convergence st next (loop.grow all next) true →
      Iterates step convergence st (left + 1) latest all (loop.grow all next)
  | go {left : ℕ} {latest all next out : List ρ} :
      loop.Presents (step (st.enter loop.name latest all)) next →
      loop.Stops convergence st next (loop.grow all next) false →
      Iterates step convergence st left next (loop.grow all next) out →
      Iterates step convergence st (left + 1) latest all out

/-- What a loop delivers: the rows it returns, in any order. -/
def denote (anchor step : Den ρ) (convergence : Option (Den ρ)) : Den ρ := fun st =>
  {l | ∃ start out, loop.Presents (anchor st) start ∧
    loop.Iterates step convergence st loop.maxIterations start start out ∧ l.Perm out}

end LoopSpec

/-- What an operator delivers from what its inputs deliver. -/
def Operator.denote : Operator ρ κ → List (Den ρ) → Den ρ
  | fixedPoint loop, [anchor, step] => loop.denote anchor step none
  | fixedPoint loop, [anchor, step, convergence] => loop.denote anchor step (some convergence)
  | operator, inputs => fun st => scramble operator.compute (inputs.map (· st))

/-- Rows are accepted when every predicate is known to be true. -/
def accepts (predicates : List (ρ → Truth)) (row : ρ) : Bool :=
  (Truth.all (predicates.map (· row))).holds

/-- What EnforceSingleRow delivers: one row, from the only row or for no row; more rows raise. -/
def singleRow (output : Option ρ → ρ) (D : Set (List ρ)) : Set (List ρ) :=
  {l | ∃ m ∈ D, m.length ≤ 1 ∧ l = [output m.head?]}

/-- What a join delivers. -/
def joined (spec : JoinSpec ρ κ) (L R : Set (List ρ)) : Set (List ρ) :=
  {l | ∃ a ∈ L, ∃ b ∈ R, (l : Multiset ρ) ∈ spec.outcomes a b}

/-- What a read of a loop's state returns. -/
def StateRead.rows (read : StateRead) (rows : List ρ × List ρ) : List ρ :=
  match read with
  | .latestDelta => rows.1
  | .accumulated => rows.2

/-- What a window computes from the rows of its input. -/
def WindowSpec.evaluate (W : WindowSpec ρ κ) : List (List ρ) → Option (List ρ)
  | [rows] => some (W.compute rows)
  | _ => none

mutual

/-- **The row sequences a plan can deliver.** -/
def Delivers : Node ρ κ → Den ρ
  | .scan rows, _ => {l | l.Perm rows}
  | .values rows, _ => {rows}
  | .workingTable name read present, st => {l | l.Perm ((read.rows (st name)).map present)}
  | .filter input predicates, st => List.filter (accepts predicates) '' Delivers input st
  | .project input exprs, st => (RowWise.map exprs).deliver (Delivers input st)
  | .inference input call, st => (RowWise.map call).deliver (Delivers input st)
  | .assignUniqueId input idColumn, st => (RowWise.attachIds idColumn).deliver (Delivers input st)
  | .unnest input expand, st => List.flatMap expand '' Delivers input st
  | .enforceSingleRow input output, st => singleRow output (Delivers input st)
  | .limit input offset count, st => cutAll (LimitBound.cut ⟨offset, count⟩) (Delivers input st)
  | .sort input order, st => sorted (fun a b => order.le a b = true) (Delivers input st)
  | .topN input order offset count, st => cutAll (LimitBound.cut ⟨offset, count⟩)
      (sorted (fun a b => order.le a b = true) (Delivers input st))
  | .unionAll inputs legColumns, st => appendAll
      (List.zipWith (fun f leg => (RowWise.map f).deliver (leg st)) legColumns (deliversAll inputs))
  | .join left right spec, st => joined spec (Delivers left st) (Delivers right st)
  | .window input spec, st => scramble spec.evaluate [Delivers input st]
  | .barrier inputs operator, st => operator.denote (deliversAll inputs) st

/-- What each of a list of plans delivers. -/
def deliversAll : List (Node ρ κ) → List (Den ρ)
  | [] => []
  | input :: inputs => Delivers input :: deliversAll inputs

end

end Verax.LimitAndOrder
