import Verax.Names.NameMappings

/-!
# Trees of joins and their columns

A query's `FROM` is a tree of joins over relations. The plan builder gives each relation a name
mapping and combines the mappings along the tree. This module embeds what the builder does for a
relation, for a join with or without a condition, and for a join with `USING`; beside it, it says
which columns a tree has, by what a query means.

* `Relation.builder`, `PlanBuilder.join`, `PlanBuilder.joinUsing`: the builder.
* `JoinTree.build`: the builder along a tree.
* `JoinTree.columns`, `JoinTree.sole`: the columns of a tree, and the one a name means.
-/

namespace Verax.Names

open Lib.Dictionary

/-! ### The builder -/

/-- The types of join that may have a `USING` list.
Source: `LogicalPlanNode.h` `JoinType`. -/
inductive JoinType where
  | inner
  | left
  | right
  | full
  deriving DecidableEq, Repr

/-- A column of a relation: the name a query gives it, if any, and the id the builder gave it. -/
structure SourceColumn (Ty : Type) where
  name : Option String
  id : ColumnId
  type : Ty
  hidden : Bool := false

/-- A relation of a `FROM`, with its alias. -/
structure Relation (Ty : Type) where
  «alias» : Option String
  columns : List (SourceColumn Ty)

/-- The part of a plan builder that names depend on: output columns and what names they have.
Source: `PlanBuilder.h` `PlanBuilder`. -/
structure PlanBuilder (Ty : Type) where
  outputType : List (ColumnId × Ty)
  outputMapping : NameMappings

/-- A name of a `USING` list, with the id a new column for it gets, if it needs one. -/
structure UsingName where
  name : String
  newId : ColumnId

/-- A `USING` column on both sides.
Source: `PlanBuilder.h` `UsingColumn`. -/
structure UsingColumn where
  name : String
  newId : ColumnId
  leftId : ColumnId
  rightId : ColumnId

/-- The common type of two types, where the session coerces: a function of the type system. -/
abbrev Coercer (Ty : Type) := Option (Ty → Ty → Option Ty)

variable {Ty : Type} [DecidableEq Ty]

/-- The names of a relation's columns.
Source: `PlanBuilder.cpp` `NameTracker::track`. -/
def Relation.names (r : Relation Ty) : List String := r.columns.filterMap (·.name)

/-- Maps the name of one column, unless other columns of the relation have it.
Source: `PlanBuilder.cpp` `NameTracker::addNamed`. -/
def addNamed (names : List String) (m : NameMappings) (c : SourceColumn Ty) :
    Except NameError NameMappings :=
  match c.name with
  | none => .ok m
  | some name =>
      if 2 ≤ names.count name then m.addUserName c.id name
      else do
        let m ← m.add ⟨none, name⟩ c.id
        if c.id ≠ name then m.addUserName c.id name else pure m

/-- Maps the names of a relation's columns, and gives the relation its alias.
Source: `PlanBuilder.cpp` `tableScan`, `resolveProjections` and `as`. -/
def Relation.builder (r : Relation Ty) : Except NameError (PlanBuilder Ty) := do
  let m ← r.columns.foldlM (addNamed r.names) {}
  let m := (r.columns.filter (·.hidden)).foldl (fun m c => m.markHidden c.id) m
  let m := match r.alias with
    | some a => m.setAlias a
    | none => m
  return ⟨r.columns.map fun c => (c.id, c.type), m⟩

namespace PlanBuilder

/-- A join with an `ON` condition or without one; the condition changes no name.
Source: `PlanBuilder.cpp` `join`, `lateralJoin`. -/
def join (left right : PlanBuilder Ty) : PlanBuilder Ty :=
  ⟨left.outputType ++ right.outputType, left.outputMapping.merge right.outputMapping⟩

/-- The column a name of the `USING` list means on each side.
Source: `PlanBuilder.cpp` `joinUsing`, first loop. -/
def usingColumn (left right : PlanBuilder Ty) (column : UsingName) :
    Except NameError UsingColumn :=
  match left.outputMapping.lookup ⟨none, column.name⟩,
    right.outputMapping.lookup ⟨none, column.name⟩ with
  | none, _ => .error (.usingNotFoundOnLeft column.name)
  | some _, none => .error (.usingNotFoundOnRight column.name)
  | some leftId, some rightId => .ok ⟨column.name, column.newId, leftId, rightId⟩

/-- The type of an output column.
Source: `RowType::findChild`. -/
def findChild (type : List (ColumnId × Ty)) (id : ColumnId) : Except NameError Ty :=
  match type.find? (·.1 == id) with
  | some c => .ok c.2
  | none => .error (.columnNotFound id)

/-- The type both sides of a `USING` column are cast to, if they differ.
Source: `PlanBuilder.cpp` `computeCommonTypes`, body of the loop. -/
def commonType (coercer : Coercer Ty) (column : UsingColumn) (leftType rightType : Ty) :
    Except NameError (Option Ty) :=
  if leftType = rightType then .ok none
  else
    match coercer with
    | none => .error (.usingDifferentTypes column.name)
    | some leastCommonSuperType =>
        match leastCommonSuperType leftType rightType with
        | none => .error (.usingIncompatibleTypes column.name)
        | some type => .ok (some type)

/-- The output column of a `USING` column: its id and type.
Source: `PlanBuilder.cpp` `addJoinUsingProjection`, first loop. -/
def usingOutput (joinType : JoinType) (column : UsingColumn) (leftType rightType : Ty)
    (common : Option Ty) : ColumnId × Ty :=
  match joinType with
  | .full => (column.newId, common.getD leftType)
  | _ =>
      let source := if joinType = .right then (column.rightId, rightType)
        else (column.leftId, leftType)
      match common with
      | some type => if source.2 ≠ type then (column.newId, type) else source
      | none => source

/-- The output column of a `USING` column, its types looked up on both sides.
Source: `PlanBuilder.cpp` `joinUsing`, `computeCommonTypes` and `addJoinUsingProjection`. -/
def projectUsing (coercer : Coercer Ty) (left right : PlanBuilder Ty) (joinType : JoinType)
    (column : UsingColumn) : Except NameError (String × ColumnId × Ty) := do
  let leftType ← findChild left.outputType column.leftId
  let rightType ← findChild right.outputType column.rightId
  let common ← commonType coercer column leftType rightType
  return (column.name, usingOutput joinType column leftType rightType common)

/-- Whether a column is one side of a `USING` column.
Source: `PlanBuilder.h` `UsingColumn::containsId`. -/
def containsId (columns : List UsingColumn) (id : ColumnId) : Bool :=
  columns.any fun c => id == c.leftId || id == c.rightId

/-- Maps the names of a column that the projection keeps.
Source: `PlanBuilder.cpp` `addJoinUsingProjection`, body of the second loop. -/
def keepNames (source : NameMappings) (m : NameMappings) (id : ColumnId) :
    Except NameError NameMappings := do
  let names ← source.reverseLookup id
  let m ← names.foldlM (fun m name => m.add name id) m
  m.copyUserName id source

/-- Projects the columns of a join so that each `USING` column is there once, and names them anew.
Source: `PlanBuilder.cpp` `addJoinUsingProjection`. -/
def addJoinUsingProjection (joined : PlanBuilder Ty) (columns : List UsingColumn)
    (outputs : List (String × ColumnId × Ty)) : Except NameError (PlanBuilder Ty) := do
  let kept := joined.outputType.filter fun c =>
    !containsId columns c.1 && !joined.outputMapping.isHidden c.1
  let m ← outputs.foldlM (fun m o => m.add ⟨none, o.1⟩ o.2.1) {}
  let m ← (kept.map Prod.fst).foldlM (keepNames joined.outputMapping) m
  let m ← m.enableUnqualifiedAccess
  return ⟨outputs.map Prod.snd ++ kept, m⟩

/-- A join with a `USING` list.
Source: `PlanBuilder.cpp` `joinUsing`. -/
def joinUsing (coercer : Coercer Ty) (left right : PlanBuilder Ty) (columns : List UsingName)
    (joinType : JoinType) : Except NameError (PlanBuilder Ty) :=
  if columns.isEmpty then .error .emptyUsing
  else do
    let usingColumns ← columns.mapM (usingColumn left right)
    let outputs ← usingColumns.mapM (projectUsing coercer left right joinType)
    (left.join right).addJoinUsingProjection usingColumns outputs

end PlanBuilder

/-! ### Trees of joins -/

/-- A tree of joins over relations. -/
inductive JoinTree (Ty : Type) where
  | relation (r : Relation Ty)
  | join (left right : JoinTree Ty)
  | joinUsing (left right : JoinTree Ty) (columns : List UsingName) (joinType : JoinType)

namespace JoinTree

/-- The builder for a tree, its mappings combined in the order of the tree. -/
def build (coercer : Coercer Ty) : JoinTree Ty → Except NameError (PlanBuilder Ty)
  | relation r => r.builder
  | join left right => do
      let l ← left.build coercer
      let r ← right.build coercer
      return l.join r
  | joinUsing left right columns joinType => do
      let l ← left.build coercer
      let r ← right.build coercer
      l.joinUsing coercer r columns joinType

/-- The ids the name allocator handed out for a tree. -/
def ids : JoinTree Ty → List ColumnId
  | relation r => r.columns.map (·.id)
  | join left right => left.ids ++ right.ids
  | joinUsing left right columns _ => left.ids ++ right.ids ++ columns.map (·.newId)

/-- The tree itself and the trees below its joins. -/
def parts : JoinTree Ty → List (JoinTree Ty)
  | relation r => [relation r]
  | join left right => join left right :: (left.parts ++ right.parts)
  | joinUsing left right columns joinType =>
      joinUsing left right columns joinType :: (left.parts ++ right.parts)

/-! ### What a query means by a name -/

/-- A column in scope: the alias of its relation, its name, whether it is hidden. A `USING` column
belongs to no relation. -/
structure Column (Ty : Type) where
  «alias» : Option String
  name : Option String
  id : ColumnId
  type : Ty
  hidden : Bool

/-- A name asks for a column by its own name and, if qualified, by the alias of its relation. -/
def Column.answersTo (q : QualifiedName) (c : Column Ty) : Bool :=
  c.name == some q.name && (q.alias.isNone || c.alias == q.alias)

/-- The column of a list that a name means: the only one that answers to it. -/
def soleOf (q : QualifiedName) (columns : List (Column Ty)) : Option (Column Ty) :=
  match columns.filter (·.answersTo q) with
  | [c] => some c
  | _ => none

/-- The single copy of a `USING` column. -/
def usingCopy (coercer : Coercer Ty) (joinType : JoinType) (left right : List (Column Ty))
    (column : UsingName) : Option (Column Ty) :=
  match soleOf ⟨none, column.name⟩ left, soleOf ⟨none, column.name⟩ right with
  | some l, some r =>
      let c : UsingColumn := ⟨column.name, column.newId, l.id, r.id⟩
      match PlanBuilder.commonType coercer c l.type r.type with
      | .ok common =>
          let output := PlanBuilder.usingOutput joinType c l.type r.type common
          some ⟨none, some column.name, output.1, output.2, false⟩
      | .error _ => none
  | _, _ => none

/-- The columns in scope: those of all relations, but a `USING` column counts once, and a `USING`
join keeps no hidden column. -/
def columns (coercer : Coercer Ty) : JoinTree Ty → List (Column Ty)
  | relation r => r.columns.map fun c => ⟨r.alias, c.name, c.id, c.type, c.hidden⟩
  | join left right => left.columns coercer ++ right.columns coercer
  | joinUsing left right names joinType =>
      names.filterMap (usingCopy coercer joinType (left.columns coercer) (right.columns coercer)) ++
        (left.columns coercer ++ right.columns coercer).filter fun c =>
          !c.hidden && !names.any fun n => c.name == some n.name

/-- The columns of a tree that answer to a name. -/
def named (coercer : Coercer Ty) (t : JoinTree Ty) (q : QualifiedName) : List (Column Ty) :=
  (t.columns coercer).filter (·.answersTo q)

/-- The column a name means: the only column in scope that answers to it. -/
def sole (coercer : Coercer Ty) (t : JoinTree Ty) (q : QualifiedName) : Option ColumnId :=
  (soleOf q (t.columns coercer)).map (·.id)

end JoinTree

end Verax.Names
