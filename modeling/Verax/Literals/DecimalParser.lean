import Verax.Literals.PrestoSqlError

/-!
# The decimal literal parser

`parseDecimal` turns the text of a decimal literal into an unscaled integer with a precision and a
scale. One loop checks the characters and records the position of the period and of the first
non-zero digit; both are kept in 32 bits. The value is read from the text without its period, by
`atol` up to 18 digits of precision and by the 128-bit conversion up to 38.

* `scan`: the loop.
* `atol`: the conversion of the standard library.
* `parseDecimal`: the whole function, over the 128-bit conversion as a parameter.
-/

namespace Verax.Literals

open Lib.Reading

/-- The precision up to which a decimal is kept in 64 bits. -/
def kShortMaxPrecision : ℕ := 18

/-- The precision up to which a decimal is kept in 128 bits. -/
def kLongMaxPrecision : ℕ := 38

/-- The conversion of a position to `size_t`; a negative one wraps around. -/
def toSizeT (value : ℤ) : ℕ := if 0 ≤ value then value.toNat else (value + 2 ^ 64).toNat

/-- The positions that the loop of `parseDecimal` records, `-1` when there is none. -/
structure Positions where
  periodPos : ℤ
  firstNonZeroPos : ℤ
deriving DecidableEq

/-- What `parseDecimal` returns: an unscaled constant of a decimal type, in 128 bits or in 64. -/
structure DecimalConstant where
  unscaled : ℤ
  precision : ℕ
  scale : ℕ
  long : Bool
deriving DecidableEq

/-- The error of a text that is not a decimal. -/
def invalidDecimal (location : NodeLocation) (value : List Char) : PrestoSqlError :=
  semanticError location value "Invalid decimal value"

/-- Source: `ExpressionPlanner.cpp` `parseDecimal`, the loop over the characters. -/
def scan (location : NodeLocation) (value : List Char) (i : ℕ) (found : Positions) :
    Except (Stop PrestoSqlError) Positions :=
  if i < value.length then do
    let character ← readAt value i
    if character = '.' then
      if found.periodPos ≠ -1 then
        raise (invalidDecimal location value)
      else
        scan location value (i + 1) { found with periodPos := toInt32 i }
    else if ¬ isDigit character then
      raise (invalidDecimal location value)
    else if found.firstNonZeroPos = -1 ∧ character ≠ '0' then
      scan location value (i + 1) { found with firstNonZeroPos := toInt32 i }
    else
      scan location value (i + 1) found
  else
    .ok found
termination_by value.length - i

/-- `std::isspace`. -/
def isSpace (character : Char) : Bool :=
  character == ' ' || ('\t' ≤ character && character ≤ '\r')

/-- The integer that a text starts with: blanks, an optional sign and the digits up to the first
other character. -/
def readSigned (text : List Char) : ℤ :=
  let text := text.dropWhile isSpace
  let negative := text.head? == some '-'
  let text := if text.head? == some '-' || text.head? == some '+' then text.tail else text
  let number : ℤ := numeral (text.takeWhile isDigit)
  if negative then -number else number

/-- `atol`. A value that does not fit is undefined there and stops the model. -/
def atol (text : List Char) : Except (Stop PrestoSqlError) ℤ := int64 (readSigned text)

/-- `std::string_view::substr` from a position. -/
def substrFrom (value : List Char) (pos : ℕ) : Except (Stop PrestoSqlError) (List Char) :=
  if pos ≤ value.length then .ok (value.drop pos) else .error .pastEnd

/-- The precision, the scale and the text of the unscaled value. -/
def measure (value : List Char) (found : Positions) :
    Except (Stop PrestoSqlError) (ℕ × ℕ × List Char) :=
  if found.periodPos = -1 then
    let precision :=
      if found.firstNonZeroPos = -1 then 1 else toSizeT (value.length - found.firstNonZeroPos)
    .ok (precision, 0, value)
  else do
    let scale := toSizeT (value.length - found.periodPos - 1)
    let precision :=
      if found.firstNonZeroPos = -1 ∨ found.firstNonZeroPos > found.periodPos then
        if scale > 0 then scale else 1
      else
        toSizeT (value.length - found.firstNonZeroPos - 1)
    let fraction ← substrFrom value (toSizeT (found.periodPos + 1))
    .ok (precision, scale, value.take (toSizeT found.periodPos) ++ fraction)

/-- The second half of `parseDecimal`: the constant, from the positions that the loop has found. -/
def convert (toInt128 : List Char → Except (Stop PrestoSqlError) ℤ) (value : List Char)
    (location : NodeLocation) (found : Positions) :
    Except (Stop PrestoSqlError) DecimalConstant := do
  let (precision, scale, unscaledValue) ← measure value found
  if precision ≤ kShortMaxPrecision then
    let unscaled ← atol unscaledValue
    .ok ⟨unscaled, precision, scale, false⟩
  else if precision ≤ kLongMaxPrecision then
    let unscaled ← toInt128 unscaledValue
    .ok ⟨unscaled, precision, scale, true⟩
  else
    raise (semanticError location value
      (s!"Invalid decimal value. Precision exceeds maximum: {precision} > " ++
        s!"{kLongMaxPrecision}."))

/-- Source: `ExpressionPlanner.cpp` `parseDecimal`. `toInt128` is `folly::to<int128_t>`. -/
def parseDecimal (toInt128 : List Char → Except (Stop PrestoSqlError) ℤ) (value : List Char)
    (location : NodeLocation) : Except (Stop PrestoSqlError) DecimalConstant :=
  if value = [] then
    raise (invalidDecimal location value)
  else do
    let first ← readAt value 0
    let startPos := if first = '+' ∨ first = '-' then 1 else 0
    let found ← scan location value startPos ⟨-1, -1⟩
    convert toInt128 value location found

end Verax.Literals
