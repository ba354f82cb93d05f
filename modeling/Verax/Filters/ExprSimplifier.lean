import Verax.Filters.Expr

/-!
# Simplifying expressions

`ExprSimplifier::simplify` and the constructors of calls it builds with. Calls are interned, so that
equal expressions are one object: equality here is equality of expressions. What the session brings
is a parameter, `Registry`: which functions can be turned around, which return NULL for a NULL
argument, and what the engine folds to a constant.

* `makeCall`, `makeIn` and the other constructors.
* `simplify`: an expression in simpler form, the first argument bounding the depth of the rewrites.

The cache of simplified expressions is left out, as it holds what would be computed again.
-/

namespace Verax.Filters

/-! ### Calls -/

/-- The functions of a session, the order in which expressions were made, and the evaluation of
constant expressions.
Source: `FunctionRegistry.h`, `Builder.h` `reversibleFunctions_`, `ExpressionEvaluator`. -/
structure Registry where
  reversibleFunctions : FunctionName → Option FunctionName
  id : Expr → ℕ
  defaultNullBehavior : FunctionName → Bool
  constant : Expr → Option Value

/-- Source: `SpecialFormCallNames::isSpecialForm`. -/
def FunctionName.isSpecialForm : FunctionName → Bool
  | and | or | «in» | cast | tryCast | «if» | switch | coalesce | rowConstructor | dereference _ => true
  | _ => false

variable (registry : Registry)

/-- Whether to swap two arguments: a literal goes right, else the older expression goes left.
Source: `Builder.cpp` `shouldInvert`. -/
def shouldInvert (left right : Expr) : Bool :=
  if left.type ≠ right.type then false
  else if left.isLiteral && !right.isLiteral then true
  else !left.isLiteral && !right.isLiteral && decide (registry.id right < registry.id left)

/-- Source: `Builder.cpp` `canonicalizeCall`. -/
def canonicalizeCall (name : FunctionName) : List Expr → FunctionName × List Expr
  | [left, right] =>
      match registry.reversibleFunctions name with
      | some reverse =>
          if shouldInvert registry left right then (reverse, [right, left])
          else (name, [left, right])
      | none => (name, [left, right])
  | args => (name, args)

/-- Source: `Builder.cpp` `makeCall`. -/
def makeCall (name : FunctionName) (args : List Expr) (type : SqlType) : Expr :=
  .apply (canonicalizeCall registry name args).1 (canonicalizeCall registry name args).2 type

/-- Source: `Builder.h` `makeNull`. -/
def makeNull (type : SqlType) : Expr := .literal .null type

/-- Source: `Builder.h` `makeBoolean`. -/
def makeBoolean (value : Bool) : Expr := .literal (.boolean value) .boolean

/-- Source: `ExprFactory.cpp` `makeAnd`. -/
def makeAnd (lhs rhs : Expr) : Expr :=
  if lhs = rhs then lhs else makeCall registry .and [lhs, rhs] .boolean

/-- Source: `ExprFactory.cpp` `makeOr`. -/
def makeOr (lhs rhs : Expr) : Expr := makeCall registry .or [lhs, rhs] .boolean

/-- Source: `ExprFactory.h` `andAll`, of a sequence that is not empty. -/
def andAll (first : Expr) (rest : List Expr) : Expr := rest.foldl (makeAnd registry) first

/-- Source: `ExprFactory.h` `orAll`, of a sequence that is not empty. -/
def orAll (first : Expr) (rest : List Expr) : Expr := rest.foldl (makeOr registry) first

/-- Source: `ExprFactory.cpp` `makeNot`. -/
def makeNot (arg : Expr) : Expr := makeCall registry .negation [arg] .boolean

/-- Source: `ExprFactory.cpp` `makeIsNull`. -/
def makeIsNull (arg : Expr) : Expr := makeCall registry .isNull [arg] .boolean

/-- Source: `ExprFactory.cpp` `makeEq`, `makeLessThan`, `makeLessThanOrEqual`, `makeGreaterThan`,
`makeGreaterThanOrEqual`. -/
def makeComparison (name : FunctionName) (lhs rhs : Expr) : Expr :=
  makeCall registry name [lhs, rhs] .boolean

/-- Source: `ExprFactory.cpp` `makeBetween`. -/
def makeBetween (value lower upper : Expr) : Expr :=
  makeCall registry .between [value, lower, upper] .boolean

/-- A comparison with one of several constants, of which there is at least one.
Source: `ExprFactory.cpp` `makeIn`. -/
def makeIn (value : Expr) (values : List Value) : Expr :=
  match values.eraseDups with
  | [single] => makeComparison registry .equality value (.literal single value.type)
  | distinct =>
      makeCall registry .in [value, .literal (.list (.ofList distinct)) (.array value.type)] .boolean

mutual

/-- Source: `ExprFactory.cpp` `flattenInto`. -/
def flatten (targetName : FunctionName) : Expr → List Expr
  | .call name args type =>
      if name = targetName then flattenArgs targetName args else [.call name args type]
  | expr => [expr]

/-- The arguments of a call, each flattened. -/
def flattenArgs (targetName : FunctionName) : Exprs → List Expr
  | .nil => []
  | .cons head tail => flatten targetName head ++ flattenArgs targetName tail

end

/-- Source: `ExprFactory.cpp` `flattenAnd`. -/
def flattenAnd (expr : Expr) : List Expr := flatten .and expr

/-- Source: `ExprFactory.cpp` `flattenOr`. -/
def flattenOr (expr : Expr) : List Expr := flatten .or expr

/-! ### Rules -/

/-- The literals of the type of a value.
Source: `ExprSimplifier.cpp` `literalInValues`, the loop. -/
def literalsOfType (type : SqlType) : List Expr → Option (List Value)
  | [] => some []
  | .literal value literalType :: args =>
      if literalType = type then (literalsOfType type args).map (value :: ·) else none
  | _ => none

/-- The constants of an IN whose arguments are all literals.
Source: `ExprSimplifier.cpp` `literalInValues`. -/
def literalInValues : List Expr → Option (Expr × List Value)
  | value :: first :: rest => (literalsOfType value.type (first :: rest)).map (value, ·)
  | _ => none

/-- The conditions and results left of an IF or SWITCH, and the result for the other rows. A literal
condition is a Boolean or NULL.
Source: `ExprSimplifier.cpp` `simplifyConditional`, the loop. -/
def liveBranches (simplify : Expr → Expr) : List Expr → List Expr × Option Expr
  | condition :: result :: rest =>
      match simplify condition with
      | .literal value _ =>
          if value = .boolean true then ([], some (simplify result)) else liveBranches simplify rest
      | simplified =>
          (simplified :: simplify result :: (liveBranches simplify rest).1,
            (liveBranches simplify rest).2)
  | [last] => ([], some (simplify last))
  | [] => ([], none)

/-- Source: `ExprSimplifier.cpp` `simplifyConditional`. -/
def simplifyConditional (simplify : Expr → Expr) (name : FunctionName) (args : List Expr)
    (type : SqlType) : Expr :=
  match (liveBranches simplify args).1 with
  | [] => (liveBranches simplify args).2.getD (makeNull type)
  | branches =>
      makeCall registry name (branches ++ [(liveBranches simplify args).2.getD (makeNull type)]) type

/-- A call with its arguments simplified.
Source: `ExprSimplifier.cpp` `simplify`, the branch of calls. -/
def simplifyArgs (simplify : Expr → Expr) (name : FunctionName) (args : List Expr)
    (type : SqlType) : Expr :=
  if name = .coalesce then
    match (args.map simplify).filter fun arg => !arg.isConstantNull with
    | [] => makeNull type
    | [arg] => arg
    | kept => if kept = args then .apply name args type else makeCall registry name kept type
  else
    match if name = .in then literalInValues (args.map simplify) else none with
    | some (value, values) => makeIn registry value values
    | none =>
        if args.map simplify = args then .apply name args type
        else makeCall registry name (args.map simplify) type

/-- A field of a row constructor.
Source: `ExprSimplifier.cpp` `tryFoldRowField`. -/
def tryFoldRowField : Expr → Option Expr
  | .call (.dereference index) (.cons (.call .rowConstructor args _) .nil) _ => args.toList[index]?
  | _ => none

/-- The equalities of fields with the values of a row.
Source: `ExprSimplifier.cpp` `tryExpandRowEquality`, the loop. -/
def fieldEqualities : List Expr → Values → SqlTypes → List Expr
  | field :: fields, .cons value values, .cons type types =>
      makeComparison registry .equality field (.literal value type) ::
        fieldEqualities fields values types
  | _, _, _ => []

/-- Whether a row has as many fields as there are values and types. -/
def sameLength : List Expr → Values → SqlTypes → Bool
  | [], .nil, .nil => true
  | _ :: fields, .cons _ values, .cons _ types => sameLength fields values types
  | _, _, _ => false

/-- Source: `ExprSimplifier.cpp` `tryExpandRowEquality`. -/
def tryExpandRowEquality : Expr → Option Expr
  | .call .equality (.cons (.call .rowConstructor fields _)
      (.cons (.literal (.list values) (.row types)) .nil)) _ =>
      if sameLength fields.toList values types then
        match fieldEqualities registry fields.toList values types with
        | [] => none
        | first :: rest => some (andAll registry first rest)
      else none
  | _ => none

/-- Source: `ExprSimplifier.cpp` `tryFoldConstant`. -/
def tryFoldConstant : Expr → Expr
  | .literal value type => .literal value type
  | .call name args type =>
      if !name.isSpecialForm && registry.defaultNullBehavior name &&
          args.toList.any Expr.isConstantNull then makeNull type
      else if (Expr.call name args type).columns = [] then
        match registry.constant (.call name args type) with
        | some value => .literal value type
        | none => .call name args type
      else .call name args type
  | expr =>
      if expr.columns = [] then
        match registry.constant expr with
        | some value => .literal value expr.type
        | none => expr
      else expr

/-- The value of a literal that is a Boolean.
Source: `ExprSimplifier.cpp` `constantBoolean`. -/
def constantBoolean : Expr → Option Bool
  | .literal (.boolean value) _ => some value
  | _ => none

/-- Source: `ExprSimplifier.cpp` `tryFoldConjunct`. -/
def tryFoldConjunct : Expr → Expr
  | .call name args type =>
      if name = .and ∨ name = .or then
        match args.toList.find? fun arg => constantBoolean arg = some (decide (name ≠ .and)) with
        | some deciding => deciding
        | none =>
            let remaining := args.toList.filter fun arg => (constantBoolean arg).isNone
            if remaining = args.toList then .call name args type
            else match remaining with
              | [] => makeBoolean (decide (name = .and))
              | [arg] => arg
              | remaining => makeCall registry name remaining type
      else .call name args type
  | expr => expr

/-- An expression in simpler form.
Source: `ExprSimplifier.cpp` `simplify`. -/
def simplify : ℕ → Expr → Expr
  | 0, expr => expr
  | fuel + 1, expr =>
      let fold expr :=
        match tryFoldRowField expr with
        | some field => field
        | none =>
            match tryExpandRowEquality registry expr with
            | some fieldEqualities => simplify fuel fieldEqualities
            | none => tryFoldConjunct registry (tryFoldConstant registry expr)
      match expr with
      | .call name args type =>
          if name = .if ∨ name = .switch then
            tryFoldConjunct registry (tryFoldConstant registry
              (simplifyConditional registry (simplify fuel) name args.toList type))
          else fold (simplifyArgs registry (simplify fuel) name args.toList type)
      | expr => fold expr

end Verax.Filters
