import Verax.Lib.Reading

/-!
# What the literal parsers share

* `NodeLocation`, `PrestoSqlError`, `semanticError`: the errors of the semantic checks.
* `toInt32`: the conversion to a 32-bit signed integer.
-/

namespace Verax.Literals

/-- Source: `AstNode.h` `NodeLocation`. -/
structure NodeLocation where
  line : ℤ
  charPosition : ℤ
deriving DecidableEq

/-- Source: `PrestoSqlError.h` `PrestoSqlError`, as the semantic checks build it. -/
structure PrestoSqlError where
  message : String
  line : ℤ
  column : ℤ
  token : List Char

/-- Source: `PrestoSqlError.h` `AXIOM_PRESTO_SEMANTIC_CHECK`. -/
def semanticError (location : NodeLocation) (token : List Char) (message : String) :
    PrestoSqlError where
  message := message
  line := location.line - 1
  column := max 0 location.charPosition
  token := token

/-- `static_cast<int32_t>`. -/
def toInt32 (value : ℤ) : ℤ := Int.bmod value (2 ^ 32)

end Verax.Literals
