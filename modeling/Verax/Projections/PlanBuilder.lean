import Verax.Names.JoinScope
import Verax.Projections.NameAllocator

/-!
# Projections of a plan builder

A plan builder adds a projection over its plan and keeps track of the names of the columns. The
model follows the source; what the mappings do not decide of an expression is resolved by a
parameter.

* `NameTracker`: adds names of columns, unless they are duplicates.
* `PlanBuilder.resolveProjections`: the columns of a projection and their names.
* `PlanBuilder.project`, `PlanBuilder.withColumns`: a projection, alone or after the input's
  columns.
* `PlanBuilder.outputNames`: the names of the columns as the user sees them.
-/

namespace Verax.Projections

open Names (NameMappings QualifiedName ColumnId NameError)

/-! ### Expressions -/

/-- An expression before its names are resolved: a column, a column of a relation, a field of what
another expression gives, or anything else.
Source: velox `IExpr`, `FieldAccessExpr`. -/
inductive UntypedExpr (E : Type) where
  | column (name : String)
  | qualified (qualifier name : String)
  | field (base : E) (name : String)
  | other (expr : E)

/-- The name of a field access.
Source: `PlanBuilder.cpp` `resolveProjections`, `Kind::kFieldAccess`. -/
def UntypedExpr.fieldName {E : Type} : UntypedExpr E → Option String
  | column name => some name
  | qualified _ name => some name
  | field _ name => some name
  | other _ => none

/-- A resolved expression: a column, here or of an enclosing query, or anything else.
Source: `Expr.h` `InputReferenceExpr`. -/
inductive TypedExpr (T : Type) where
  | inputReference (id : ColumnId)
  | other (expr : T)
  deriving DecidableEq

/-- An expression of a projection, with its alias.
Source: `ExprApi.h` `ExprApi`. -/
structure Projection (E : Type) where
  expr : UntypedExpr E
  «alias» : Option String

/-- A step of the mappings, in the builder. -/
def liftNames {α : Type} (step : Except NameError α) : Except BuilderError α :=
  step.mapError .names

/-! ### Duplicate names -/

/-- Adds names of columns; `duplicates` are the names of several columns, none of them if duplicates
are not allowed.
Source: `PlanBuilder.cpp` `NameTracker`. -/
structure NameTracker where
  duplicates : List String

namespace NameTracker

/-- The tracker after some names were tracked.
Source: `PlanBuilder.cpp` `NameTracker::track`. -/
def track (allowDuplicates : Bool) (names : List String) : NameTracker :=
  ⟨if allowDuplicates then names.filter fun name => name ≠ "" ∧ 2 ≤ names.count name else []⟩

variable (tracker : NameTracker)

/-- Source: `PlanBuilder.cpp` `NameTracker::addQualified`. -/
def addQualified (m : NameMappings) (name : QualifiedName) (id : ColumnId) :
    Except NameError NameMappings :=
  match m.lookup name with
  | some existing => .ok (if existing ≠ id then m.markAmbiguous name else m)
  | none => m.add name id

/-- Source: `PlanBuilder.cpp` `NameTracker::add`, of a qualified name. -/
def add (m : NameMappings) (name : QualifiedName) (id : ColumnId) :
    Except NameError NameMappings :=
  if name.alias = none then
    if name.name ∈ tracker.duplicates then .ok m else m.add name id
  else addQualified m name id

/-- Source: `PlanBuilder.cpp` `NameTracker::addNamed`. -/
def addNamed (m : NameMappings) («alias» : String) (id : ColumnId) :
    Except NameError NameMappings :=
  if «alias» ∈ tracker.duplicates then m.addUserName id «alias»
  else do
    let m ← m.add ⟨none, «alias»⟩ id
    if id ≠ «alias» then m.addUserName id «alias» else .ok m

end NameTracker

/-- Source: `PlanBuilder.cpp` `pickName`. -/
def pickName (names : List QualifiedName) : Option String :=
  match names.find? fun name => name.alias.isNone with
  | some name => some name.name
  | none => names.head?.map QualifiedName.name

/-! ### The builder -/

/-- The part of a plan builder that names depend on: the columns of its plan, their names, and the
names given out. A builder without a plan is one whose plan has no columns.
Source: `PlanBuilder.h` `PlanBuilder`. -/
structure PlanBuilder where
  outputs : List ColumnId
  outputMapping : NameMappings
  nameAllocator : NameAllocator
  allowAmbiguousOutputNames : Bool

/-- A projection of a plan.
Source: `LogicalPlanNode.h` `ProjectNode`. -/
structure ProjectNode (T : Type) where
  outputNames : List ColumnId
  exprs : List (TypedExpr T)
  deriving DecidableEq

/-- The columns placed so far and their names.
Source: `PlanBuilder.cpp` `resolveProjections`, what its loop updates. -/
structure Placed (T : Type) where
  outputNames : List ColumnId
  exprs : List (TypedExpr T)
  mappings : NameMappings
  seenColumnIds : List ColumnId
  nameAllocator : NameAllocator

/-- Source: `PlanBuilder.cpp` `resolveProjections`, `kExprHint`. -/
def kExprHint : String := "expr"

namespace PlanBuilder

variable {E T : Type} (builder : PlanBuilder)
  (resolveOther : UntypedExpr E → Except BuilderError (TypedExpr T))

/-- A column that a name means, which is a column of the plan.
Source: `PlanBuilder.cpp` `resolveInputName`, `makeInputRef`. -/
def inputReference (id : ColumnId) : Except BuilderError (TypedExpr T) :=
  if id ∈ builder.outputs then .ok (.inputReference id) else .error (.names (.columnNotFound id))

/-- An expression; what the mappings do not decide is resolved otherwise.
Source: `PlanBuilder.cpp` `resolveScalarTypes`, `resolveInputName`, `ExprResolver.cpp`
`resolveScalarTypes`. -/
def resolve : UntypedExpr E → Except BuilderError (TypedExpr T)
  | .column name =>
      match builder.outputMapping.lookup ⟨none, name⟩ with
      | some id => builder.inputReference id
      | none => resolveOther (.column name)
  | .qualified qualifier name =>
      match builder.outputMapping.lookup ⟨some qualifier, name⟩ with
      | some id => builder.inputReference id
      | none => resolveOther (.qualified qualifier name)
  | expr => resolveOther expr

/-- The names tracked for the projections: aliases, else the names of field accesses.
Source: `PlanBuilder.cpp` `resolveProjections`, loop over `projections` with `nameTracker.track`. -/
def trackedNames (projections : List (Projection E)) : List String :=
  projections.filterMap fun p => p.alias.or p.expr.fieldName

/-- A column passed through under its own name, for the first time or once more.
Source: `PlanBuilder.cpp` `resolveProjections`, branch without a rename. -/
def placeIdentity (tracker : NameTracker) (inputNames : List QualifiedName)
    («alias» : Option String) (id : ColumnId) (placed : Placed T) :
    Except BuilderError (Placed T) :=
  if id ∈ placed.seenColumnIds then do
    let (newId, allocator) ← placed.nameAllocator.newName id
    let mappings ← liftNames <|
      match (builder.outputMapping.userName id).or (pickName inputNames) with
      | some name => placed.mappings.addUserName newId name
      | none => .ok placed.mappings
    return { placed with
      outputNames := placed.outputNames ++ [newId]
      mappings := mappings
      nameAllocator := allocator }
  else do
    let names : List QualifiedName := match «alias» with
      | some name => if inputNames.all (·.name ≠ name) then [⟨none, name⟩] else inputNames
      | none => inputNames
    let mappings ← liftNames <| names.foldlM (fun m name => tracker.add m name id) placed.mappings
    let mappings ← liftNames <| mappings.copyUserName id builder.outputMapping
    return { placed with
      outputNames := placed.outputNames ++ [id]
      mappings := mappings
      seenColumnIds := id :: placed.seenColumnIds }

/-- A column named by its alias; the qualified names stay if the alias is one of the input's names.
Source: `PlanBuilder.cpp` `resolveProjections`, branch of an alias. -/
def placeNamed (tracker : NameTracker) (inputNames : List QualifiedName) («alias» : String)
    (placed : Placed T) : Except BuilderError (Placed T) := do
  let (newId, allocator) ← placed.nameAllocator.newName «alias»
  let mappings ← liftNames <| tracker.addNamed placed.mappings «alias» newId
  let names := if inputNames.all (·.name ≠ «alias») then []
    else inputNames.filter fun name => name.alias.isSome
  let mappings ← liftNames <| names.foldlM (fun m name => tracker.add m name newId) mappings
  return { placed with
    outputNames := placed.outputNames ++ [newId]
    mappings := mappings
    nameAllocator := allocator }

/-- A column without a name; the user name is empty if the alias is.
Source: `PlanBuilder.cpp` `resolveProjections`, branches of an empty alias and of no alias. -/
def placeUnnamed (hint : String) (userName : Option String) (placed : Placed T) :
    Except BuilderError (Placed T) := do
  let (newId, allocator) ← placed.nameAllocator.newName hint
  let mappings ← liftNames <| match userName with
    | some name => placed.mappings.addUserName newId name
    | none => .ok placed.mappings
  return { placed with
    outputNames := placed.outputNames ++ [newId]
    mappings := mappings
    nameAllocator := allocator }

/-- The hint for a column with an empty alias.
Source: `PlanBuilder.cpp` `resolveProjections`, `hint`. -/
def hintOf : TypedExpr T → String
  | .inputReference id => id
  | .other _ => kExprHint

/-- The names the input has for a column, none for other expressions.
Source: `PlanBuilder.cpp` `resolveProjections`, `inputNames`. -/
def inputNames : TypedExpr T → Except BuilderError (List QualifiedName)
  | .inputReference id => liftNames (builder.outputMapping.reverseLookup id)
  | .other _ => .ok []

/-- The column of the input an expression passes through under its own name.
Source: `PlanBuilder.cpp` `resolveProjections`, `readsLocalInput` and the alias. -/
def identityOf («alias» : Option String) : TypedExpr T → Option ColumnId
  | .inputReference id =>
      if id ∈ builder.outputs ∧ («alias» = none ∨ «alias» = some id) then some id else none
  | .other _ => none

/-- Places the column of a projection.
Source: `PlanBuilder.cpp` `resolveProjections`, body of the loop after `expr` is resolved. -/
def place (tracker : NameTracker) («alias» : Option String) (expr : TypedExpr T)
    (placed : Placed T) : Except BuilderError (Placed T) :=
  if «alias» = some "" then
    if builder.allowAmbiguousOutputNames then placeUnnamed (hintOf expr) (some "") placed
    else .error .emptyAlias
  else do
    let inputNames ← builder.inputNames expr
    match builder.identityOf «alias» expr, «alias» with
    | some id, _ => builder.placeIdentity tracker inputNames «alias» id placed
    | none, some name => placeNamed tracker inputNames name placed
    | none, none => placeUnnamed kExprHint none placed

/-- Source: `PlanBuilder.cpp` `resolveProjections`, body of the loop. -/
def resolveProjection (tracker : NameTracker) (placed : Placed T) (projection : Projection E) :
    Except BuilderError (Placed T) := do
  let expr ← builder.resolve resolveOther projection.expr
  let placed ← builder.place tracker projection.alias expr placed
  return { placed with exprs := placed.exprs ++ [expr] }

/-- The unqualified names there are.
Source: `NameMappings.cpp` `uniqueNames`. -/
def uniqueNames (m : NameMappings) : List String :=
  (m.mappings.entries.filter fun e => e.1.alias.isNone).map fun e => e.1.name

/-- Places the columns of projections after those there are.
Source: `PlanBuilder.cpp` `resolveProjections`. -/
def resolveProjections (projections : List (Projection E)) (placed : Placed T) :
    Except BuilderError (Placed T) :=
  let tracker := NameTracker.track builder.allowAmbiguousOutputNames
    (uniqueNames placed.mappings ++ trackedNames projections)
  projections.foldlM (builder.resolveProjection resolveOther tracker) placed

/-- The projection of the columns placed, and the builder over it.
Source: `PlanBuilder.cpp` `project` and `with`, from `ProjectNode` on. -/
def finish (placed : Placed T) : Except BuilderError (ProjectNode T × PlanBuilder) := do
  let mapping ← liftNames placed.mappings.enableUnqualifiedAccess
  return (⟨placed.outputNames, placed.exprs⟩,
    { builder with
      outputs := placed.outputNames
      outputMapping := mapping
      nameAllocator := placed.nameAllocator })

/-- Source: `PlanBuilder.cpp` `project`. -/
def project (projections : List (Projection E)) :
    Except BuilderError (ProjectNode T × PlanBuilder) := do
  let placed ← builder.resolveProjections resolveOther projections
    ⟨[], [], {}, [], builder.nameAllocator⟩
  builder.finish placed

/-- The columns of the input are kept with their names, as a `USING` join keeps columns.
Source: `PlanBuilder.cpp` `with`. -/
def withColumns (projections : List (Projection E)) :
    Except BuilderError (ProjectNode T × PlanBuilder) := do
  let mappings ← liftNames <|
    builder.outputs.foldlM (Names.PlanBuilder.keepNames builder.outputMapping) {}
  let placed ← builder.resolveProjections resolveOther projections
    ⟨builder.outputs, builder.outputs.map .inputReference, mappings, builder.outputs,
      builder.nameAllocator⟩
  builder.finish placed

/-- The name of a column as the user sees it, nothing if the column is anonymous.
Source: `PlanBuilder.cpp` `outputNames`. -/
def outputName (id : ColumnId) : Except NameError (Option String) :=
  match builder.outputMapping.userName id with
  | some name => .ok (some name)
  | none => (builder.outputMapping.reverseLookup id).map pickName

end PlanBuilder

end Verax.Projections
