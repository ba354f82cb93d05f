import Verax.Lib.StateExcept

/-!
# Table references and the CTEs they name

A query's `WITH` lists declare common table expressions (CTEs). The parser keeps, for each name, a
stack of the declarations in force, and translates the body of a CTE anew at each reference to it:
it hides the CTE and the later ones of its list, translates the body against what is left on the
stacks, and puts the hidden ones back. This module embeds that translation as far as table
references go; what it returns is the tree of what each reference was resolved to.

* `CteScope`: the stacks, and the recursive CTEs being expanded.
* `tryProcessCteReference`, `processTableWith`, `processQueryWith`: one reference, one query.
* `processQuery`: the translation, to a depth of nested translations.

Relation and column names, which the parser resolves by other means, are left out, as are the
clauses of a query that hold no table references.
-/

namespace Verax.Ctes

open Lib.StateExcept

/-! ### Queries -/

mutual

/-- A query: its `WITH` list, and its body.
Source: `AstNodesAll.h` `Query`, `With`. -/
inductive Query where
  | mk (recursive : Bool) (withQueries : WithList) (body : Body)

/-- The CTEs of a `WITH` list, in order: name, where it is written, query.
Source: `AstNodesAll.h` `WithQuery`. -/
inductive WithList where
  | nil
  | cons (name : String) (location : ℕ) (query : Query) (rest : WithList)

/-- What a query body reads: tables by their name's parts, and queries nested in it as relations or
in expressions. Only `UNION ALL` is told apart from other ways to combine. -/
inductive Body where
  | empty
  | table (name : List String)
  | subquery (query : Query)
  | both (left right : Body)
  | unionAll (left right : Body)

end

/-- What the references of a body were resolved to. -/
inductive Relation where
  | empty
  | table (name : List String)
  | view (name : List String) (text : Relation)
  | cte (location : ℕ) (body : Relation)
  | fixedPoint (location : ℕ) (anchor step : Relation)
  | loopState (location : ℕ)
  | subquery (body : Relation)
  | both (left right : Relation)
  | unionAll (left right : Relation)
  deriving DecidableEq, Repr

namespace Query

def recursive : Query → Bool
  | mk recursive _ _ => recursive

def withQueries : Query → WithList
  | mk _ withQueries _ => withQueries

def body : Query → Body
  | mk _ _ body => body

end Query

/-- The names of a list. -/
def WithList.names : WithList → List String
  | nil => []
  | cons name _ _ rest => name :: rest.names

mutual

/-- Whether a query refers to a name, found without looking below a query whose own list has it.
Source: `RecursiveCteValidator.cpp` `CteSelfReferenceFinder::visitQuery`. -/
def Query.references (cteName : String) : Query → Bool
  | .mk _ withQueries body =>
      if withQueries.names.contains cteName then false
      else withQueries.references cteName || body.references cteName

/-- Source: `DefaultTraversalVisitor.h` `visitWith`. -/
def WithList.references (cteName : String) : WithList → Bool
  | .nil => false
  | .cons _ _ query rest => query.references cteName || rest.references cteName

/-- Source: `RecursiveCteValidator.cpp` `CteSelfReferenceFinder::visitTable`. -/
def Body.references (cteName : String) : Body → Bool
  | .empty => false
  | .table name => name.getLast? == some cteName
  | .subquery query => query.references cteName
  | .both left right => left.references cteName || right.references cteName
  | .unionAll left right => left.references cteName || right.references cteName

end

/-! ### The stacks of declarations -/

/-- A CTE as its list declares it.
Source: `AstNodesAll.h` `WithQuery`. -/
structure WithQuery where
  name : String
  location : ℕ
  query : Query

/-- One binding: the CTE, whether its body refers to itself, its list and its place there.
Source: `CteScope.h` `Entry`. -/
structure Entry where
  withQuery : WithQuery
  isRecursive : Bool
  siblings : List String
  index : ℕ

/-- The bindings in scope, the innermost first, and the recursive CTEs being expanded.
Source: `CteScope.h` `CteScope`. -/
structure CteScope where
  bindings : String → List Entry := fun _ => []
  anchors : List (String × ℕ) := []

/-- Why a translation stops. -/
inductive ParseError where
  | tooDeep
  | duplicateWithName (name : String)
  | nestedRecursive (name : String)
  | notUnionAll (name : String)
  | selfReferenceInAnchor (name : String)
  | tableNotFound (name : List String)
  | outOfFuel
  deriving DecidableEq, Repr

/-- A step of the translation. -/
abbrev Planner (α : Type) := Checked ParseError CteScope α

namespace CteScope

/-- Source: `CteScope.h` `bind`. -/
def bind (s : CteScope) (name : String) (entry : Entry) : CteScope where
  bindings m := if m = name then entry :: s.bindings m else s.bindings m
  anchors := s.anchors.filter fun a => a.1 ≠ name

/-- The scope without the innermost binding of a name.
Source: `CteScope.h` `hide`. -/
def pop (s : CteScope) (name : String) : CteScope :=
  { s with bindings := fun m => if m = name then (s.bindings m).tail else s.bindings m }

/-- Source: `CteScope.h` `Hidden::restore`. -/
def push (s : CteScope) (name : String) (entry : Entry) : CteScope :=
  { s with bindings := fun m => if m = name then entry :: s.bindings m else s.bindings m }

/-- Source: `CteScope.h` `anchorFor`. -/
def anchorFor (s : CteScope) (name : String) : Option ℕ := s.anchors.lookup name

/-- Source: `CteScope.h` `pushAnchor`. -/
def pushAnchor (s : CteScope) (name : String) (location : ℕ) : CteScope :=
  { s with anchors := (name, location) :: s.anchors }

/-- Source: `CteScope.h` `pushAnchor`, the guard. -/
def popAnchor (s : CteScope) (name : String) : CteScope :=
  { s with anchors := s.anchors.filter fun a => a.1 ≠ name }

end CteScope

/-- Hides a name's innermost binding, if it has one.
Source: `CteScope.h` `hide`. -/
def hide (name : String) : Planner (Option Entry) := do
  let s ← get
  modify (·.pop name)
  return (s.bindings name).head?

/-- Puts a hidden binding back.
Source: `CteScope.h` `Hidden::restore`. -/
def restore (name : String) : Option Entry → Planner PUnit
  | none => pure ⟨⟩
  | some entry => modify (·.push name entry)

/-- Hides several names, translates, and puts them back.
Source: `PrestoParser.cpp` `tryProcessCteReference`, `laterSiblings`. -/
def hidingAll {α : Type} (m : Planner α) : List String → Planner α
  | [] => m
  | name :: names => do
      let hidden ← hide name
      let a ← hidingAll m names
      restore name hidden
      return a

/-! ### The translation -/

/-- What the catalog has under a name: a table, or a view with its text parsed. -/
inductive TableSource where
  | table
  | view (text : Query)

/-- The connector's tables and views, by the parts of a name as the query writes it. -/
abbrev Catalog := List String → Option TableSource

section

variable (table : List String → Planner Relation) (query : Query → Planner Relation)

/-- The references of a body.
Source: `PrestoParser.cpp` `processQueryBody`, `processFrom`. -/
def processBody : Body → Planner Relation
  | .empty => pure .empty
  | .table name => table name
  | .subquery q => do
      let r ← query q
      return .subquery r
  | .both left right => do
      let l ← processBody left
      let r ← processBody right
      return .both l r
  | .unionAll left right => do
      let l ← processBody left
      let r ← processBody right
      return .unionAll l r

/-- A reference to a recursive CTE: the anchor term, then the recursive term with the CTE as the
state of the loop.
Source: `PrestoParser.cpp` `translateRecursiveCteReference`,
`RecursiveCteValidator.cpp` `extractAndValidateRecursiveUnion`. -/
def translateRecursiveCteReference (withEntry : WithQuery) : Planner Relation := do
  let s ← get
  if s.anchors.isEmpty then
    match withEntry.query.body with
    | .unionAll left right =>
        if left.references withEntry.name then throw (.selfReferenceInAnchor withEntry.name)
        else do
          let anchor ← processBody table query left
          modify (·.pushAnchor withEntry.name withEntry.location)
          let step ← processBody table query right
          modify (·.popAnchor withEntry.name)
          return .fixedPoint withEntry.location anchor step
    | _ => throw (.notUnionAll withEntry.name)
  else throw (.nestedRecursive withEntry.name)

/-- The body of a CTE, at a reference to it.
Source: `PrestoParser.cpp` `tryProcessCteReference`. -/
def processCteBody (entry : Entry) : Planner Relation :=
  if entry.isRecursive then translateRecursiveCteReference table query entry.withQuery
  else do
    let r ← query entry.withQuery.query
    return .cte entry.withQuery.location r

/-- A one-part name as a CTE reference, if it is one.
Source: `PrestoParser.cpp` `tryProcessCteReference`. -/
def tryProcessCteReference (name : String) : Planner (Option Relation) := do
  let s ← get
  match s.anchorFor name with
  | some location => return some (.loopState location)
  | none => do
      let hidden ← hide name
      match hidden with
      | none => return none
      | some entry => do
          let r ← hidingAll (processCteBody table query entry)
            (entry.siblings.drop (entry.index + 1))
          restore name hidden
          return some r

/-- A name that is no CTE: a table, or a view, whose text is translated without the loops in force.
Source: `PrestoParser.cpp` `processTable`. -/
def processBaseTable (catalog : Catalog) (name : List String) : Planner Relation :=
  match catalog name with
  | some .table => return .table name
  | some (.view text) => do
      let s ← get
      modify fun s => { s with anchors := [] }
      let r ← query text
      modify fun s' => { s' with anchors := s.anchors }
      return .view name r
  | none => throw (.tableNotFound name)

/-- A table reference. Only a one-part name can name a CTE.
Source: `PrestoParser.cpp` `processTable`. -/
def processTableWith (catalog : Catalog) (name : List String) : Planner Relation := do
  let found ← match name with
    | [part] => tryProcessCteReference table query part
    | _ => pure none
  match found with
  | some r => return r
  | none => processBaseTable query catalog name

/-- Declares the CTEs of a list.
Source: `PrestoParser.cpp` `processQuery`, second loop over the list. -/
def bindAll (recursive : Bool) (siblings : List String) : ℕ → WithList → Planner PUnit
  | _, .nil => pure ⟨⟩
  | i, .cons name location q rest => do
      modify (·.bind name
        ⟨⟨name, location, q⟩, recursive && q.references name, siblings, i⟩)
      bindAll recursive siblings (i + 1) rest

/-- The first name that an earlier one of the list repeats.
Source: `PrestoParser.cpp` `processQuery`, first loop over the list. -/
def repeatedName : List String → List String → Option String
  | _, [] => none
  | seen, name :: names => if name ∈ seen then some name else repeatedName (name :: seen) names

/-- A query: its list is in force for its body, and no longer.
Source: `PrestoParser.cpp` `processQuery`, `CteScope.h` `enterScope`. -/
def processQueryWith (q : Query) : Planner Relation := do
  let saved ← get
  match repeatedName [] q.withQueries.names with
  | some name => throw (.duplicateWithName name)
  | none => do
      bindAll q.recursive q.withQueries.names 0 q.withQueries
      let r ← processBody table query q.body
      set saved
      return r

end

mutual

/-- The translation of a query at a nesting depth. The first argument bounds the depth of the
translations nested in each other.
Source: `PrestoParser.cpp` `processQuery`. -/
def processQuery (catalog : Catalog) (maxSubqueryDepth : ℕ) : ℕ → ℕ → Query → Planner Relation
  | 0, _, _ => throw .outOfFuel
  | fuel + 1, depth, q =>
      if depth < maxSubqueryDepth then
        processQueryWith (processTable catalog maxSubqueryDepth fuel (depth + 1))
          (processQuery catalog maxSubqueryDepth fuel (depth + 1)) q
      else throw .tooDeep

/-- The translation of a table reference at a nesting depth.
Source: `PrestoParser.cpp` `processTable`. -/
def processTable (catalog : Catalog) (maxSubqueryDepth : ℕ) :
    ℕ → ℕ → List String → Planner Relation
  | 0, _, _ => throw .outOfFuel
  | fuel + 1, depth, name =>
      processTableWith (processTable catalog maxSubqueryDepth fuel depth)
        (processQuery catalog maxSubqueryDepth fuel depth) catalog name

end

end Verax.Ctes
