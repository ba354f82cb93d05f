import Verax.Filters.ColumnsRead

/-!
# Transitive filters

`PushdownAndPrunePass::deriveTransitive`: inside an inner join the columns of a key are equal, so a
filter on the column of one side says the same of the column of the other. Each filter is rewritten
through the keys of the join, from left to right and from right to left; a rewritten filter that
reads one side is kept, and a filter that reads both sides is dropped where its rewriting reads one.

* `replace`, `makeSubstitutions`: rewriting through pairs of columns.
* `simplifyNonNull`: simplifying where some columns are not NULL.
* `Join`, `Join.equiColumnPairs`: a join and the columns it equates.
* `deriveFilter`, `deriveTransitive`: the filters left pending.

Lambda expressions are left out.
-/

set_option linter.unusedSectionVars false

namespace Verax.Filters

open Lib

/-! ### Replacing columns -/

/-- Columns to put in the place of columns.
Source: `ExprFactory.h` `ExprSubstitution`. -/
abbrev ExprSubstitution := List (Column × Column)

section

variable (registry : Registry)

mutual

/-- An expression with columns replaced.
Source: `ExprFactory.cpp` `replace`, `replaceExpr`. -/
def replace (mapping : ExprSubstitution) : Expr → Expr
  | .column c =>
      match mapping.lookup c with
      | some target => .column target
      | none => .column c
  | .literal value type => .literal value type
  | .field base name type => .field (replace mapping base) name type
  | .call name args type =>
      if replaceArgs mapping args = args.toList then .call name args type
      else makeCall registry name (replaceArgs mapping args) type

/-- Source: `ExprFactory.cpp` `replaceInCall`, the loop. -/
def replaceArgs (mapping : ExprSubstitution) : Exprs → List Expr
  | .nil => []
  | .cons head tail => replace mapping head :: replaceArgs mapping tail

end

end

/-- Adds a pair to the first mapping that does not have its source: a source that was met `n` times
before goes to the mapping at `n`. -/
def addSubstitution (result : List ExprSubstitution) (pair : Column × Column) :
    List ExprSubstitution :=
  match result with
  | [] => [[pair]]
  | mapping :: rest =>
      if pair.1 ∈ mapping.map Prod.fst then mapping :: addSubstitution rest pair
      else (mapping ++ [pair]) :: rest

/-- Mappings that send the sources to the targets, repeated sources in separate mappings.
Source: `PushdownAndPrunePass.cpp` `makeSubstitutions`. -/
def makeSubstitutions (pairs : List (Column × Column)) : List ExprSubstitution :=
  pairs.foldl addSubstitution []

/-! ### Columns that are not NULL -/

mutual

/-- Whether an expression cannot be NULL. A literal has a value of its type.
Source: `ExprSimplifier.cpp` `isKnownNonNull`. -/
def isKnownNonNull (nonNullColumns : List Column) : Expr → Bool
  | .column c => decide (c ∈ nonNullColumns)
  | .literal value type => decide (Value.conform type value ≠ .null)
  | .field _ _ _ => false
  | .call name args _ => decide (name = .coalesce) && anyKnownNonNull nonNullColumns args

def anyKnownNonNull (nonNullColumns : List Column) : Exprs → Bool
  | .nil => false
  | .cons head tail => isKnownNonNull nonNullColumns head || anyKnownNonNull nonNullColumns tail

end

/-- The arguments left of a COALESCE: none that is a literal NULL, and none after one that cannot be
NULL.
Source: `ExprSimplifier.cpp` `simplify` with non-null columns, the branches for `isCoalesce`. -/
def coalesceArgs (nonNullColumns : List Column) : List Expr → List Expr
  | [] => []
  | arg :: rest =>
      if arg.isConstantNull then coalesceArgs nonNullColumns rest
      else if isKnownNonNull nonNullColumns arg then [arg]
      else arg :: coalesceArgs nonNullColumns rest

/-- Whether a type has no elements.
Source: `velox/type/Type.h` `isPrimitiveType`. -/
def SqlType.isPrimitive (primitive : String → Bool) : SqlType → Bool
  | .array _ => false
  | .row _ => false
  | .other name => primitive name
  | _ => true

section

variable (registry : Registry) (volatile : FunctionName → Bool) (primitive : String → Bool)

/-- A call with its arguments simplified, some columns not being NULL. An IS NULL is Boolean, as is
the literal in its place.
Source: `ExprSimplifier.cpp` `simplify` with non-null columns, after the loop over the arguments. -/
def simplifyCall (nonNullColumns : List Column) (name : FunctionName) (args : List Expr)
    (type : SqlType) (simplifiedArgs : List Expr) : Expr :=
  if name = .coalesce then
    match simplifiedArgs with
    | first :: rest =>
        if isKnownNonNull nonNullColumns first then first
        else
          match coalesceArgs nonNullColumns (first :: rest) with
          | [] => makeNull type
          | [arg] => if [arg] = args then .apply name args type else arg
          | kept => if kept = args then .apply name args type else makeCall registry name kept type
    | [] => .apply name args type
  else
    let rebuilt :=
      if simplifiedArgs = args then .apply name args type
      else makeCall registry name simplifiedArgs type
    match name, simplifiedArgs with
    | .isNull, [arg] =>
        if isKnownNonNull nonNullColumns arg then .literal (.boolean false) type else rebuilt
    | .equality, [lhs, rhs] =>
        if lhs = rhs && lhs.type.isPrimitive primitive && !containsNonDeterministic volatile lhs &&
            isKnownNonNull nonNullColumns lhs then makeBoolean true
        else rebuilt
    | _, _ => rebuilt

mutual

/-- An expression in simpler form, some columns not being NULL.
Source: `ExprSimplifier.cpp` `simplify` with non-null columns. -/
def simplifyNonNull (nonNullColumns : List Column) : Expr → Expr
  | .column c => .column c
  | .literal value type => .literal value type
  | .field base name type => .field (simplifyNonNull nonNullColumns base) name type
  | .call name args type =>
      simplifyCall registry volatile primitive nonNullColumns name args.toList type
        (simplifyNonNullArgs nonNullColumns args)

def simplifyNonNullArgs (nonNullColumns : List Column) : Exprs → List Expr
  | .nil => []
  | .cons head tail =>
      simplifyNonNull nonNullColumns head :: simplifyNonNullArgs nonNullColumns tail

end

/-! ### Deriving filters -/

/-- Source: `PushdownAndPrunePass.cpp` `isSelfEquality`. -/
def isSelfEquality : Expr → Bool
  | .call .equality (.cons lhs (.cons rhs .nil)) _ => decide (lhs = rhs)
  | _ => false

/-- The conjuncts of a filter rewritten through a mapping, or none where no row meets it.
Source: `PushdownAndPrunePass.cpp` `deriveFilter`. -/
def deriveFilter (fuel : ℕ) (nonNullTargets : List Column) (mapping : ExprSubstitution)
    (filter : Expr) : Except CheckFailure (Option (List Expr)) :=
  if containsNonDeterministic volatile filter then .ok (some [])
  else
    let substituted := replace registry mapping filter
    if substituted = filter ∨ isSelfEquality substituted then .ok (some [])
    else
      simplifyFilter registry fuel
        (simplifyNonNull registry volatile primitive nonNullTargets substituted)

end

/-- An inner join, as far as the derivation reads it, with what a join guarantees of its keys.
Source: `Node.h` `Join`. -/
structure Join where
  keys : List (Expr × Expr)
  filter : List Expr
  nullAsValue : Bool
  leftColumns : List Column
  rightColumns : List Column
  key_types : ∀ p ∈ keys, p.1.type = p.2.type
  keys_within : ∀ p ∈ keys, p.1.Within {c | c ∈ leftColumns} ∧ p.2.Within {c | c ∈ rightColumns}
  filter_conditions : ∀ e ∈ filter, Condition e
  disjoint : ∀ c ∈ leftColumns, c ∉ rightColumns

namespace Join

variable (join : Join)

/-- Source: `JoinPredicatePlacement.cpp` `equiColumnPairs`, the loop over the keys. -/
def keyPair : Expr × Expr → Option (Column × Column)
  | (.column left, .column right) => some (left, right)
  | _ => none

/-- Source: `JoinPredicatePlacement.cpp` `equiColumnPairs`, `addEqualityPair`. -/
def equalityPair : Expr → Option (Column × Column)
  | .call .equality (.cons (.column first) (.cons (.column second) .nil)) _ =>
      if first ∈ join.leftColumns ∧ second ∈ join.rightColumns then some (first, second)
      else if second ∈ join.leftColumns ∧ first ∈ join.rightColumns then some (second, first)
      else none
  | _ => none

/-- The pairs of columns the join equates, each once.
Source: `JoinPredicatePlacement.cpp` `equiColumnPairs`. -/
def equiColumnPairs : List (Column × Column) :=
  (join.keys.filterMap keyPair ++ join.filter.filterMap join.equalityPair).eraseDups

/-- Source: `PushdownAndPrunePass.cpp` `addNonNullKeys`. -/
def nonNullKeys (keys : List Column) : List Column := if join.nullAsValue then [] else keys

/-- The mappings a filter is rewritten through, each with the columns that are not NULL where it
leads.
Source: `PushdownAndPrunePass.cpp` `deriveTransitive`, `toLeft` and `toRight`. -/
def mappings : List (ExprSubstitution × List Column) :=
  (makeSubstitutions (join.equiColumnPairs.map Prod.swap)).map
      (·, join.nonNullKeys (join.equiColumnPairs.map Prod.fst)) ++
    (makeSubstitutions join.equiColumnPairs).map
      (·, join.nonNullKeys (join.equiColumnPairs.map Prod.snd))

/-- Source: `PushdownAndPrunePass.cpp` `deriveTransitive`, `readsOneInput`. -/
def readsOneInput (conjunct : Expr) : Bool :=
  decide (conjunct.columns ≠ []) &&
    (conjunct.columns.all (· ∈ join.leftColumns) || conjunct.columns.all (· ∈ join.rightColumns))

end Join

/-- Source: `PushdownAndPrunePass.cpp` `appendDistinct`. -/
def appendDistinct (destination source : List Expr) : List Expr :=
  source.foldl (fun destination e => if e ∈ destination then destination else destination ++ [e])
    destination

section

variable (registry : Registry) (volatile : FunctionName → Bool) (primitive : String → Bool)
  (fuel : ℕ) (join : Join)

/-- The copies of a conjunct, a list for each mapping, or none where no row meets it.
Source: `PushdownAndPrunePass.cpp` `deriveTransitive`, the loops over the mappings. -/
def copiesOf (conjunct : Expr) : List (ExprSubstitution × List Column) →
    Except CheckFailure (Option (List (List Expr)))
  | [] => .ok (some [])
  | (mapping, nonNullTargets) :: rest => do
      match ← deriveFilter registry volatile primitive fuel nonNullTargets mapping conjunct with
      | none => return none
      | some copies =>
          let others ← copiesOf conjunct rest
          return others.map (copies :: ·)

/-- Whether every copy of one rewrite reads one input.
Source: `PushdownAndPrunePass.cpp` `deriveTransitive`, `covered`. -/
def Join.covered (copies : List (List Expr)) : Bool :=
  copies.any fun rewrite => !rewrite.isEmpty && rewrite.all join.readsOneInput

/-- The conjuncts kept and the conjuncts derived, or none where no row meets the pending ones.
Source: `PushdownAndPrunePass.cpp` `deriveTransitive`, the loop over the pending conjuncts. -/
def derivePending : List Expr → Except CheckFailure (Option (List Expr × List Expr))
  | [] => .ok (some ([], []))
  | conjunct :: pending => do
      match ← copiesOf registry volatile primitive fuel conjunct join.mappings with
      | none => return none
      | some copies =>
          let others ← derivePending pending
          return others.map fun (kept, derived) =>
            (if join.readsOneInput conjunct || !join.covered copies then conjunct :: kept else kept,
              copies.flatten.filter join.readsOneInput ++ derived)

/-- The conjuncts left pending, or none where the join is empty.
Source: `PushdownAndPrunePass.cpp` `deriveTransitive`. -/
def deriveTransitive (pending : List Expr) : Except CheckFailure (Option (List Expr)) :=
  if join.equiColumnPairs = [] then .ok (some pending)
  else
    (derivePending registry volatile primitive fuel join pending).map fun result =>
      result.map fun (kept, derived) => appendDistinct kept derived

end

end Verax.Filters
