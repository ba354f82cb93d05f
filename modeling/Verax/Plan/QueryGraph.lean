import Mathlib.Data.Finset.Union
import Mathlib.Data.Set.Basic

/-!
# Expressions

The expressions of the query graph: columns, literals, calls, field reads and lambdas. A call has the
functions that are somewhere in it, as its creator recorded them.

* `functionBits`: what is recorded about a function.
* `Expr.columns`: the columns an expression reads.
* `Expr.WellFormed`: the functions of a call include its own and those of its arguments.
-/

namespace Verax.QueryGraph

/-! ### Functions -/

/-- The bits of a `FunctionSet` that are asked for here.
Source: `FunctionRegistry.h` `FunctionSet`. -/
structure FunctionSet where
  nonDeterministic : Bool
  nonDefaultNullBehavior : Bool
  deriving DecidableEq

namespace FunctionSet

/-- The functions of either set. -/
def union (s t : FunctionSet) : FunctionSet :=
  ⟨s.nonDeterministic || t.nonDeterministic, s.nonDefaultNullBehavior || t.nonDefaultNullBehavior⟩

/-- No function. -/
def empty : FunctionSet := ⟨false, false⟩

/-- Every function of a set is in another. -/
structure Subset (s t : FunctionSet) : Prop where
  nonDeterministic : s.nonDeterministic = true → t.nonDeterministic = true
  nonDefaultNullBehavior : s.nonDefaultNullBehavior = true → t.nonDefaultNullBehavior = true

end FunctionSet

/-- The names of special forms. Source: `QueryGraph.cpp` `SpecialFormCallNames`. -/
def specialFormCallNames : List String :=
  ["__and", "__or", "__cast", "__try_cast", "__try", "__coalesce", "__if", "__switch", "__in",
    "__nullif", "__dereference", "__row_constructor"]

/-- Source: `QueryGraph.cpp` `SpecialFormCallNames::kAnd`. -/
def kAnd : String := "__and"

/-- Source: `QueryGraph.cpp` `SpecialFormCallNames::kOr`. -/
def kOr : String := "__or"

/-- Source: `QueryGraph.cpp` `SpecialFormCallNames::kTry`. -/
def kTry : String := "__try"

/-- Source: `QueryGraph.cpp` `SpecialFormCallNames::kCoalesce`. -/
def kCoalesce : String := "__coalesce"

/-- Source: `QueryGraph.cpp` `SpecialFormCallNames::kIf`. -/
def kIf : String := "__if"

/-- Source: `QueryGraph.cpp` `SpecialFormCallNames::kSwitch`. -/
def kSwitch : String := "__switch"

/-- Source: velox `VectorFunctionMetadata`. -/
structure FunctionMetadata where
  deterministic : Bool
  defaultNullBehavior : Bool

/-- What is registered of functions, nothing if there is no such function: of inference functions,
and of others.
Source: velox `AsyncRPCFunctionRegistry::find`, `isDeterministic`, `isDefaultNullBehavior`. -/
structure Registry where
  inference : String → Option FunctionMetadata
  function : String → Option FunctionMetadata

/-- Source: `FunctionRegistry.cpp` `functionBits`. -/
def functionBits (registry : Registry) (name : String) (specialForm : Bool) : FunctionSet :=
  if specialForm then ⟨false, true⟩
  else
    match registry.inference name with
    | some metadata => ⟨!metadata.deterministic, !metadata.defaultNullBehavior⟩
    | none =>
        match registry.function name with
        | some metadata => ⟨!metadata.deterministic, !metadata.defaultNullBehavior⟩
        | none => FunctionSet.empty

/-- The bits of the function of a call. -/
def ownFunctions (registry : Registry) (name : String) : FunctionSet :=
  functionBits registry name (name ∈ specialFormCallNames)

/-! ### Expressions -/

/-- Source: `QueryGraph.h` `Column`. -/
structure Column where
  id : ℕ
  deriving DecidableEq

/-- Expressions; the value of a literal is `none` if it is NULL. A call has the functions its
creator recorded.
Source: `QueryGraph.h` `Column`, `Literal`, `Call`, `Field`, `Lambda`. -/
inductive Expr (V : Type) where
  | column (column : Column)
  | literal (value : Option V)
  | call (name : String) (functions : FunctionSet) (args : List (Expr V))
  | field (base : Expr V) (field : String)
  | lambda (args : List Column) (body : Expr V)

/-! ### Equality -/

mutual

/-- Whether two expressions are equal. -/
def Expr.decEq {V : Type} [DecidableEq V] : (a b : Expr V) → Decidable (a = b)
  | .column c, .column d => decidable_of_iff (c = d) (by simp)
  | .literal v, .literal w => decidable_of_iff (v = w) (by simp)
  | .call name functions args, .call name' functions' args' =>
      have := Expr.decEqAll args args'
      decidable_of_iff (name = name' ∧ functions = functions' ∧ args = args') (by simp)
  | .field base name, .field base' name' =>
      have := Expr.decEq base base'
      decidable_of_iff (base = base' ∧ name = name') (by simp)
  | .lambda args body, .lambda args' body' =>
      have := Expr.decEq body body'
      decidable_of_iff (args = args' ∧ body = body') (by simp)
  | .column _, .literal _ | .column _, .call _ _ _ | .column _, .field _ _ | .column _, .lambda _ _
  | .literal _, .column _ | .literal _, .call _ _ _ | .literal _, .field _ _
  | .literal _, .lambda _ _ | .call _ _ _, .column _ | .call _ _ _, .literal _
  | .call _ _ _, .field _ _ | .call _ _ _, .lambda _ _ | .field _ _, .column _
  | .field _ _, .literal _ | .field _ _, .call _ _ _ | .field _ _, .lambda _ _
  | .lambda _ _, .column _ | .lambda _ _, .literal _ | .lambda _ _, .call _ _ _
  | .lambda _ _, .field _ _ => .isFalse nofun

/-- Whether two lists of expressions are equal. -/
def Expr.decEqAll {V : Type} [DecidableEq V] : (a b : List (Expr V)) → Decidable (a = b)
  | [], [] => .isTrue rfl
  | a :: as, b :: bs =>
      have := Expr.decEq a b
      have := Expr.decEqAll as bs
      decidable_of_iff (a = b ∧ as = bs) (by simp)
  | [], _ :: _ | _ :: _, [] => .isFalse nofun

end

instance {V : Type} [DecidableEq V] : DecidableEq (Expr V) := Expr.decEq

/-! ### What an expression reads and calls -/

namespace Expr

variable {V : Type}

/-- Source: `QueryGraph.h` `Expr::functions`, `Call::functions`, `Field::functions`,
`Lambda::functions`. -/
def functions : Expr V → FunctionSet
  | .column _ => .empty
  | .literal _ => .empty
  | .call _ functions _ => functions
  | .field base _ => base.functions
  | .lambda _ body => body.functions

/-- Source: `QueryGraph.h` `Expr::containsNonDefaultNullBehavior`. -/
def containsNonDefaultNullBehavior (e : Expr V) : Bool := e.functions.nonDefaultNullBehavior

/-- Source: `QueryGraph.h` `Expr::containsNonDeterministic`. -/
def containsNonDeterministic (e : Expr V) : Bool := e.functions.nonDeterministic

mutual

/-- The columns an expression reads. Source: `QueryGraph.h` `Expr::columns`. -/
def columns : Expr V → Finset Column
  | .column c => {c}
  | .literal _ => ∅
  | .call _ _ args => columnsAll args
  | .field base _ => base.columns
  | .lambda args body => body.columns \ args.toFinset

/-- The columns some expressions read. -/
def columnsAll : List (Expr V) → Finset Column
  | [] => ∅
  | e :: es => e.columns ∪ columnsAll es

end

/-- Source: `QueryGraph.cpp` `Call::unionArgFunctions`. -/
def unionArgFunctions (functions : FunctionSet) (args : List (Expr V)) : FunctionSet :=
  args.foldl (fun functions arg => functions.union arg.functions) functions

mutual

/-- Every call has the bits of its function and of its arguments.
Source: `QueryGraph.h` `Call`, the comment of its constructor. -/
def WellFormed (registry : Registry) : Expr V → Prop
  | .column _ => True
  | .literal _ => True
  | .call name functions args =>
      (unionArgFunctions (ownFunctions registry name) args).Subset functions ∧
        AllWellFormed registry args
  | .field base _ => base.WellFormed registry
  | .lambda _ body => body.WellFormed registry

/-- Some expressions are well-formed. -/
def AllWellFormed (registry : Registry) : List (Expr V) → Prop
  | [] => True
  | e :: es => e.WellFormed registry ∧ AllWellFormed registry es

end

lemma mem_columnsAll {c : Column} : ∀ {es : List (Expr V)},
    c ∈ columnsAll es ↔ ∃ e ∈ es, c ∈ e.columns
  | [] => by simp [columnsAll]
  | e :: es => by simp [columnsAll, mem_columnsAll]

lemma allWellFormed_iff {registry : Registry} : ∀ {es : List (Expr V)},
    AllWellFormed registry es ↔ ∀ e ∈ es, e.WellFormed registry
  | [] => by simp [AllWellFormed]
  | e :: es => by simp [AllWellFormed, allWellFormed_iff]

/-- The functions that are added to are in a union. -/
lemma subset_unionArgFunctions (functions : FunctionSet) (args : List (Expr V)) :
    functions.Subset (unionArgFunctions functions args) ∧
      ∀ arg ∈ args, arg.functions.Subset (unionArgFunctions functions args) := by
  induction args generalizing functions with
  | nil => exact ⟨⟨id, id⟩, by simp⟩
  | cons arg args ih =>
      obtain ⟨⟨hdet, hnull⟩, hrest⟩ := ih (functions.union arg.functions)
      refine ⟨⟨fun h => hdet ?_, fun h => hnull ?_⟩, fun arg' harg' => ?_⟩
      · exact Bool.or_eq_true_iff.mpr (.inl h)
      · exact Bool.or_eq_true_iff.mpr (.inl h)
      · rcases List.mem_cons.mp harg' with rfl | harg'
        · exact ⟨fun h => hdet (Bool.or_eq_true_iff.mpr (.inr h)),
            fun h => hnull (Bool.or_eq_true_iff.mpr (.inr h))⟩
        · exact hrest arg' harg'

/-- A call records its own function and those of its arguments. -/
lemma WellFormed.subset {registry : Registry} {name : String} {functions : FunctionSet}
    {args : List (Expr V)} (h : (Expr.call name functions args).WellFormed registry) :
    (ownFunctions registry name).Subset functions ∧
      ∀ arg ∈ args, arg.functions.Subset functions := by
  obtain ⟨hown, hargs⟩ := subset_unionArgFunctions (ownFunctions registry name) args
  exact ⟨⟨fun h' => h.1.1 (hown.1 h'), fun h' => h.1.2 (hown.2 h')⟩, fun arg harg =>
    ⟨fun h' => h.1.1 ((hargs arg harg).1 h'), fun h' => h.1.2 ((hargs arg harg).2 h')⟩⟩

end Expr

/-! ### Rows -/

/-- A value for each column, `none` being NULL. -/
abbrev Row (V : Type) := Column → Option V

/-- A row with values for some columns, NULL for those that values are missing for. -/
def Row.extend {V : Type} (row : Row V) (columns : List Column) (values : List (Option V)) :
    Row V := fun c =>
  if c ∈ columns then ((columns.zip values).lookup c).getD none else row c

end Verax.QueryGraph
