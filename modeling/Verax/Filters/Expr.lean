import Mathlib
import Verax.Lib.ThreeValued

/-!
# Filter expressions

The expressions a filter is made of, and what they evaluate to on a row. An expression is a column,
a literal, a field of a row, or a call of one of the functions the simplifier knows by name or of
any other. What the query engine computes for the other functions, for values of other types than
the integral ones and for the types stored as a BIGINT is a parameter, `Engine`.

* `Engine.apply`: what a call evaluates to; comparisons, Boolean operators and special forms as SQL
  has them.
* `Engine.eval`: the value of an expression on a row.

Lambda expressions, and calls that give a new value each time, are left out.
-/

namespace Verax.Filters

open Lib

/-! ### Types and values -/

mutual

/-- A type, as far as filters tell types apart. `bigintBacked` are the types stored as a BIGINT that
bring their own comparison, such as a timestamp with its time zone.
Source: `velox/type/Type.h`, as `Domain.cpp` `integralTypeDomain` reads it. -/
inductive SqlType where
  | boolean
  | tinyint
  | smallint
  | integer
  | bigint
  | bigintBacked (name : String)
  | date
  | intervalDayTime
  | intervalYearMonth
  | decimal
  | time
  | varchar
  | other (name : String)
  | array (element : SqlType)
  | row (fields : SqlTypes)
  deriving DecidableEq

/-- The types of the fields of a row. -/
inductive SqlTypes where
  | nil
  | cons (head : SqlType) (tail : SqlTypes)
  deriving DecidableEq

end

namespace SqlType

/-- The integer types of SQL. -/
def isInteger : SqlType → Bool
  | tinyint | smallint | integer | bigint => true
  | _ => false

/-- The types the optimizer keeps integer ranges of. -/
def isIntegral (type : SqlType) : Bool :=
  match type with
  | bigintBacked _ => true
  | type => type.isInteger

end SqlType

/-- A value of up to eight bytes. -/
abbrev Integral := {value : ℤ // -2 ^ 63 ≤ value ∧ value ≤ 2 ^ 63 - 1}

lemma fits_zero : -2 ^ 63 ≤ (0 : ℤ) ∧ (0 : ℤ) ≤ 2 ^ 63 - 1 := by decide

lemma fits_one : -2 ^ 63 ≤ (1 : ℤ) ∧ (1 : ℤ) ≤ 2 ^ 63 - 1 := by decide

mutual

/-- A value. Arrays and rows are lists.
Source: `velox/type/Variant.h`. -/
inductive Value where
  | null
  | boolean (value : Bool)
  | integral (value : Integral)
  | text (value : String)
  | list (elements : Values)
  deriving DecidableEq

/-- The elements of an array, or the fields of a row. -/
inductive Values where
  | nil
  | cons (head : Value) (tail : Values)
  deriving DecidableEq

end

namespace SqlTypes

def toList : SqlTypes → List SqlType
  | nil => []
  | cons head tail => head :: tail.toList

def ofList : List SqlType → SqlTypes
  | [] => nil
  | head :: tail => cons head (ofList tail)

@[simp] lemma toList_ofList (l : List SqlType) : (ofList l).toList = l := by
  induction l with
  | nil => rfl
  | cons head tail ih => rw [ofList, toList, ih]

end SqlTypes

namespace Values

def toList : Values → List Value
  | nil => []
  | cons head tail => head :: tail.toList

def ofList : List Value → Values
  | [] => nil
  | head :: tail => cons head (ofList tail)

@[simp] lemma toList_ofList (l : List Value) : (ofList l).toList = l := by
  induction l with
  | nil => rfl
  | cons head tail ih => rw [ofList, toList, ih]

end Values

namespace Value

/-- A Boolean value as a truth value. -/
def truth : Value → Truth
  | boolean b => some b
  | _ => none

/-- A truth value as a Boolean value. -/
def ofTruth : Truth → Value
  | some b => boolean b
  | none => null

@[simp] lemma truth_ofTruth (t : Truth) : (ofTruth t).truth = t := by
  cases t <;> rfl

/-- A value of a type: at the Boolean type, a Boolean or NULL. -/
def conform : SqlType → Value → Value
  | .boolean, value => ofTruth value.truth
  | _, value => value

@[simp] lemma truth_conform (type : SqlType) (value : Value) :
    (conform type value).truth = value.truth := by
  cases type <;> simp [conform]

@[simp] lemma conform_conform (type : SqlType) (value : Value) :
    conform type (conform type value) = conform type value := by
  cases type <;> simp [conform]

lemma conform_null (type : SqlType) : conform type null = null := by
  cases type <;> rfl

end Value

/-! ### Expressions -/

/-- A function, a special form, or any other function by its name. A dereference selects its field
by an integer literal, which is part of the name here.
Source: `FunctionRegistry.h` `FunctionNames`, `SpecialFormCallNames`. -/
inductive FunctionName where
  | and
  | or
  | negation
  | equality
  | lt
  | lte
  | gt
  | gte
  | distinctFrom
  | isNull
  | between
  | like
  | in
  | cast
  | tryCast
  | if
  | switch
  | coalesce
  | rowConstructor
  | dereference (index : ℕ)
  | named (name : String)
  deriving DecidableEq

/-- Source: `QueryGraph.h` `Column`. -/
structure Column where
  id : ℕ
  type : SqlType
  deriving DecidableEq

mutual

/-- Source: `QueryGraph.h` `Expr`. -/
inductive Expr where
  | column (column : Column)
  | literal (value : Value) (type : SqlType)
  | field (base : Expr) (name : String) (type : SqlType)
  | call (name : FunctionName) (args : Exprs) (type : SqlType)
  deriving DecidableEq

/-- The arguments of a call. -/
inductive Exprs where
  | nil
  | cons (head : Expr) (tail : Exprs)
  deriving DecidableEq

end

namespace Exprs

def toList : Exprs → List Expr
  | nil => []
  | cons head tail => head :: tail.toList

def ofList : List Expr → Exprs
  | [] => nil
  | head :: tail => cons head (ofList tail)

@[simp] lemma toList_ofList (l : List Expr) : (ofList l).toList = l := by
  induction l with
  | nil => rfl
  | cons head tail ih => rw [ofList, toList, ih]

@[simp] lemma ofList_toList : (args : Exprs) → ofList args.toList = args
  | nil => rfl
  | cons head tail => by rw [toList, ofList, ofList_toList tail]

end Exprs

namespace Expr

def type : Expr → SqlType
  | column c => c.type
  | literal _ type => type
  | field _ _ type => type
  | call _ _ type => type

/-- A call over a list of arguments. -/
def apply (name : FunctionName) (args : List Expr) (type : SqlType) : Expr :=
  call name (.ofList args) type

/-- A literal NULL.
Source: `PlanUtils.h` `isConstantNull`. -/
def isConstantNull : Expr → Bool
  | literal .null _ => true
  | _ => false

def isLiteral : Expr → Bool
  | literal _ _ => true
  | _ => false

end Expr

mutual

/-- The columns an expression reads.
Source: `QueryGraph.h` `Expr::columns`. -/
def Expr.columns : Expr → List Column
  | .column c => [c]
  | .literal _ _ => []
  | .field base _ _ => base.columns
  | .call _ args _ => args.columns

def Exprs.columns : Exprs → List Column
  | .nil => []
  | .cons head tail => head.columns ∪ tail.columns

end

/-! ### Evaluation -/

/-- A value for each column. -/
abbrev Row := Column → Value

/-- What the query engine computes where the model does not say: how a BIGINT-backed type orders its
values, comparisons at other types, casts, patterns, fields and other functions. -/
structure Engine where
  key : String → Integral → ℤ
  compare : FunctionName → SqlType → Value → Value → Truth
  cast : FunctionName → SqlType → SqlType → Value → Value
  like : Value → Value → Truth
  field : String → Value → Value
  call : String → List Value → Value

/-- The comparison of integers a function makes. -/
def relation : FunctionName → ℤ → ℤ → Bool
  | .lt, a, b => decide (a < b)
  | .lte, a, b => decide (a ≤ b)
  | .gt, a, b => decide (b < a)
  | .gte, a, b => decide (b ≤ a)
  | _, a, b => decide (a = b)

namespace Engine

variable (engine : Engine)

/-- What a type compares of an integral value. -/
def order : SqlType → Integral → ℤ
  | .bigintBacked name => engine.key name
  | _ => Subtype.val

mutual

/-- A comparison at a type: unknown of NULL; rows are compared field by field for equality. -/
def compareValues (name : FunctionName) : SqlType → Value → Value → Truth
  | type, lhs, rhs =>
      match lhs, rhs with
      | .null, _ => none
      | _, .null => none
      | .integral a, .integral b => some (relation name (engine.order type a) (engine.order type b))
      | .list as, .list bs =>
          match type with
          | .row fields =>
              if name = .equality then equalFields fields as bs
              else engine.compare name (.row fields) lhs rhs
          | _ => engine.compare name type lhs rhs
      | _, _ => engine.compare name type lhs rhs

/-- Equality of rows, field by field. -/
def equalFields : SqlTypes → Values → Values → Truth
  | .cons type types, .cons a as, .cons b bs =>
      (compareValues .equality type (.conform type a) (.conform type b)).and
        (equalFields types as bs)
  | _, _, _ => some true

end

/-- Whether two values differ, NULL being a value. -/
def distinctValues (type : SqlType) : Value → Value → Truth
  | .null, .null => some false
  | .null, _ => some true
  | _, .null => some true
  | .integral a, .integral b => some (decide (engine.order type a ≠ engine.order type b))
  | lhs, rhs => engine.compare .distinctFrom type lhs rhs

/-- The elements an IN compares with: those of its one array, or its arguments. -/
def inElements : List SqlType → List Value → Option (List Value)
  | [type, listType], [list] =>
      if listType = .array type then
        match list with
        | .list elements => some (elements.toList.map (Value.conform type))
        | _ => none
      else some [list]
  | _, elements => some elements

/-- Whether a value is one of several: unknown of NULL, and if it is equal to none and NULL is among
them. -/
def isIn (type : SqlType) (value : Value) : Option (List Value) → Truth
  | some elements =>
      if value = .null then none
      else Truth.any (elements.map (engine.compareValues .equality type value))
  | none => none

/-- The result of the first condition that is true, or the last result. -/
def select : List Value → Value
  | condition :: result :: rest => if condition.truth = some true then result else select rest
  | [last] => last
  | [] => .null

/-- What a call evaluates to. -/
def apply (name : FunctionName) (types : List SqlType) (type : SqlType) (args : List Value) : Value :=
  match name, args with
  | .and, _ => .ofTruth (.all (args.map Value.truth))
  | .or, _ => .ofTruth (.any (args.map Value.truth))
  | .negation, [a] => .ofTruth a.truth.not
  | .isNull, [a] => .boolean (a = .null)
  | .between, [a, low, high] =>
      .ofTruth ((engine.compareValues .gte (types.headD .boolean) a low).and
        (engine.compareValues .lte (types.headD .boolean) a high))
  | .in, a :: elements =>
      .ofTruth (engine.isIn (types.headD .boolean) a (inElements types elements))
  | .like, [a, pattern] => .ofTruth (engine.like a pattern)
  | .cast, [a] => engine.cast .cast (types.headD .boolean) type a
  | .tryCast, [a] => engine.cast .tryCast (types.headD .boolean) type a
  | .if, _ => select args
  | .switch, _ => select args
  | .coalesce, _ => (args.find? (· ≠ .null)).getD .null
  | .rowConstructor, _ => .list (.ofList args)
  | .dereference index, [.list fields] => fields.toList.getD index .null
  | .distinctFrom, [a, b] => .ofTruth (engine.distinctValues (types.headD .boolean) a b)
  | .named f, _ => engine.call f args
  | name, [a, b] => .ofTruth (engine.compareValues name (types.headD .boolean) a b)
  | _, _ => .null

mutual

/-- The value of an expression on a row. -/
def eval (row : Row) : Expr → Value
  | .column c => .conform c.type (row c)
  | .literal value type => .conform type value
  | .field base name type => .conform type (engine.field name (eval row base))
  | .call name args type =>
      .conform type (engine.apply name (args.toList.map Expr.type) type (evalAll row args))

/-- The values of the arguments of a call. -/
def evalAll (row : Row) : Exprs → List Value
  | .nil => []
  | .cons head tail => eval row head :: evalAll row tail

end

lemma evalAll_eq (row : Row) :
    (args : Exprs) → engine.evalAll row args = args.toList.map (engine.eval row)
  | .nil => by rw [evalAll, Exprs.toList, List.map_nil]
  | .cons head tail => by rw [evalAll, Exprs.toList, List.map_cons, evalAll_eq row tail]

lemma eval_call (row : Row) (name : FunctionName) (args : Exprs) (type : SqlType) :
    engine.eval row (.call name args type) =
      .conform type (engine.apply name (args.toList.map Expr.type) type
        (args.toList.map (engine.eval row))) := by
  rw [eval, evalAll_eq]

lemma eval_apply (row : Row) (name : FunctionName) (args : List Expr) (type : SqlType) :
    engine.eval row (.apply name args type) =
      .conform type (engine.apply name (args.map Expr.type) type (args.map (engine.eval row))) := by
  rw [Expr.apply, eval_call, Exprs.toList_ofList]

/-- An expression has a value of its type. -/
lemma conform_eval (row : Row) (e : Expr) :
    Value.conform e.type (engine.eval row e) = engine.eval row e := by
  cases e with
  | column c => rw [eval]; exact Value.conform_conform _ _
  | literal value type => rw [eval]; exact Value.conform_conform _ _
  | field base name type => rw [eval]; exact Value.conform_conform _ _
  | call name args type => rw [eval]; exact Value.conform_conform _ _

/-- A Boolean expression is known by its truth value. -/
lemma eval_of_boolean (row : Row) {e : Expr} (h : e.type = .boolean) :
    engine.eval row e = .ofTruth (engine.eval row e).truth := by
  conv_lhs => rw [← conform_eval, h]
  rfl

/-- A condition is met. -/
def accepts (row : Row) (e : Expr) : Prop := (engine.eval row e).truth = some true

end Engine

end Verax.Filters
