import Verax.Literals.PrestoSqlError

/-!
# The interval literal parser

`IntervalParser::parse` turns an interval literal of the syntax tree into a typed constant: months
for a year-month qualifier, milliseconds for a day-time qualifier.

* `readNumber`, `readMillis`, `readField`, `readSeparator`, `checkEnd`: the readers that share one
  position in the text.
* `parseDayTime`, `parseYearMonth`: the two groups of fields.
* `parse`: the qualifier checks, the two signs and the typed constant.

A read past the end and an integer that leaves its 64 bits stop the model (`Stop`), so that their
absence is a statement about it.
-/

namespace Verax.Literals

open Lib.Reading

/-! ### The literal -/

/-- Source: `AstLiterals.h` `IntervalLiteral::IntervalField`. -/
inductive IntervalField
  | year
  | month
  | day
  | hour
  | minute
  | second
deriving DecidableEq

/-- The position of a field in the enumeration. -/
def IntervalField.rank : IntervalField → ℕ
  | .year => 0
  | .month => 1
  | .day => 2
  | .hour => 3
  | .minute => 4
  | .second => 5

/-- Source: `AstNodesAll.cpp` `intervalFieldNames`. -/
def IntervalField.name : IntervalField → String
  | .year => "YEAR"
  | .month => "MONTH"
  | .day => "DAY"
  | .hour => "HOUR"
  | .minute => "MINUTE"
  | .second => "SECOND"

/-- Source: `AstLiterals.h` `IntervalLiteral::Sign`. -/
inductive Sign
  | positive
  | negative
deriving DecidableEq

/-- Source: `AstLiterals.h` `IntervalLiteral`. -/
structure IntervalLiteral where
  location : NodeLocation
  value : List Char
  sign : Sign
  startField : IntervalField
  endField : Option IntervalField

/-- Source: `AstLiterals.h` `IntervalLiteral::isYearToMonth`. -/
def IntervalLiteral.isYearToMonth (literal : IntervalLiteral) : Bool :=
  literal.startField == .year || literal.startField == .month

/-! ### The readers -/

/-- What the readers return: a value, a message, or a fault. -/
abbrev ParseResult (α : Type) := Except (Stop String) α

/-- Source: `IntervalParser.cpp` `kMaxDigits`. -/
def kMaxDigits : ℕ := 10

/-- `std::numeric_limits<int32_t>::max()`. -/
def kMaxInt32 : ℤ := 2147483647

/-- The loop of `readNumber`. -/
def readNumber.loop (value : List Char) (field : IntervalField) (start pos : ℕ) (number : ℤ) :
    ParseResult (ℤ × ℕ) :=
  if pos < value.length then do
    let character ← readAt value pos
    if isDigit character then
      if pos - start = kMaxDigits then
        raise s!"The {field.name} field must contain at most {kMaxDigits} digits"
      else
        let number ← int64 (number * 10)
        let number ← int64 (number + ((character.toNat : ℤ) - ('0'.toNat : ℤ)))
        readNumber.loop value field start (pos + 1) number
    else
      .ok (number, pos)
  else
    .ok (number, pos)
termination_by value.length - pos

/-- Whether the value has this character at the position. -/
def isAt (value : List Char) (pos : ℕ) (character : Char) : ParseResult Bool :=
  if pos < value.length then do
    let found ← readAt value pos
    .ok (found == character)
  else
    .ok false

/-- Source: `IntervalParser.cpp` `readNumber`. -/
def readNumber (value : List Char) (pos : ℕ) (field : IntervalField) : ParseResult (ℤ × ℕ) := do
  let start := pos
  let (number, pos) ← readNumber.loop value field start pos 0
  let fraction ← if pos = start ∧ field = .second then isAt value pos '.' else .ok false
  if pos = start ∧ ¬ (field = .second ∧ fraction = true) then
    raise s!"Expected digits in the {field.name} field"
  else if number > kMaxInt32 then
    raise s!"The {field.name} field exceeds {kMaxInt32}"
  else
    .ok (number, pos)

/-- The loop of `readMillis` over the digits of the fraction. -/
def readMillis.loop (value : List Char) (integerDigits start pos : ℕ) (millis : ℤ) :
    ParseResult (ℤ × ℕ) :=
  if pos < value.length then do
    let character ← readAt value pos
    if isDigit character then
      let fractionDigits := pos - start
      if integerDigits + fractionDigits = kMaxDigits then
        raise s!"The SECOND field must contain at most {kMaxDigits} digits, including the fraction"
      else
        let millis ←
          if fractionDigits < 3 then do
            let millis ← int64 (millis * 10)
            int64 (millis + ((character.toNat : ℤ) - ('0'.toNat : ℤ)))
          else
            .ok millis
        readMillis.loop value integerDigits start (pos + 1) millis
    else
      .ok (millis, pos)
  else
    .ok (millis, pos)
termination_by value.length - pos

/-- The loop of `readMillis` that scales a short fraction. -/
def readMillis.scale (digits : ℕ) (millis : ℤ) : ParseResult ℤ :=
  if digits < 3 then do
    let millis ← int64 (millis * 10)
    readMillis.scale (digits + 1) millis
  else
    .ok millis
termination_by 3 - digits

/-- Source: `IntervalParser.cpp` `readMillis`. -/
def readMillis (value : List Char) (pos integerDigits : ℕ) : ParseResult (ℤ × ℕ) := do
  let point ← isAt value pos '.'
  if point = false then
    .ok (0, pos)
  else if integerDigits ≥ kMaxDigits then
    raise s!"A decimal point requires fewer than {kMaxDigits} integer digits in the SECOND field"
  else
    let pos := pos + 1
    let start := pos
    let (millis, pos) ← readMillis.loop value integerDigits start pos 0
    if integerDigits = 0 ∧ pos = start then
      raise "Expected digits in the SECOND field"
    else
      let millis ← readMillis.scale (pos - start) millis
      .ok (millis, pos)

/-- Source: `IntervalParser.cpp` `readField`. -/
def readField (value : List Char) (pos : ℕ) (field : IntervalField) : ParseResult (ℤ × ℕ) := do
  let plus ← isAt value pos '+'
  let pos := if plus then pos + 1 else pos
  let minus ← isAt value pos '-'
  if minus then
    raise s!"The {field.name} field must be non-negative"
  else
    let start := pos
    let (number, pos) ← readNumber value pos field
    if field = .second then
      let (millis, pos) ← readMillis value pos (pos - start)
      let seconds ← int64 (number * 1000)
      let total ← int64 (seconds + millis)
      .ok (total, pos)
    else
      .ok (number, pos)

/-- Source: `IntervalParser.cpp` `Separator`. -/
inductive Separator
  | space
  | colon
  | hyphen
deriving DecidableEq

/-- The character that `readSeparator` expects. -/
def Separator.expected : Separator → Char
  | .space => ' '
  | .colon => ':'
  | .hyphen => '-'

/-- The words with which `readSeparator` asks for it. -/
def Separator.description : Separator → String
  | .space => "a space"
  | .colon => "':'"
  | .hyphen => "'-'"

/-- Source: `IntervalParser.cpp` `readSeparator`. -/
def readSeparator (value : List Char) (pos : ℕ) (separator : Separator)
    (previous next : IntervalField) : ParseResult ℕ := do
  let character ← readAt value pos
  if character ≠ separator.expected then
    raise s!"Expected {separator.description} between {previous.name} and {next.name}"
  else
    .ok (pos + 1)

/-- Source: `IntervalParser.cpp` `checkEnd`. -/
def checkEnd (value : List Char) (pos : ℕ) : ParseResult Unit :=
  if pos < value.length then
    raise s!"Unexpected characters: {String.ofList (value.drop pos)}"
  else
    .ok ()

/-! ### The two groups of fields -/

/-- Source: `IntervalParser.cpp` `dayTimeField`; `none` is its unreachable branch. -/
def dayTimeField : IntervalField → Option ℕ
  | .day => some 0
  | .hour => some 1
  | .minute => some 2
  | .second => some 3
  | .year | .month => none

/-- Source: `IntervalParser.cpp` `parseDayTime`, the table `kUnits`. -/
def kUnits : List (IntervalField × ℤ) :=
  [(.day, 24 * 60 * 60 * 1000), (.hour, 60 * 60 * 1000), (.minute, 60 * 1000), (.second, 1)]

/-- The loop of `parseDayTime` over the fields of the qualifier. -/
def parseDayTime.loop (value : List Char) (first last index pos : ℕ) (millis : ℤ) :
    ParseResult (ℤ × ℕ) :=
  if index ≤ last ∧ pos < value.length then do
    let (field, unitMillis) ← readAt kUnits index
    let pos ←
      if index > first then do
        let (previous, _) ← readAt kUnits (index - 1)
        readSeparator value pos (if index = 1 then .space else .colon) previous field
      else
        .ok pos
    let (fieldValue, pos) ← readField value pos field
    let term ← int64 (fieldValue * unitMillis)
    let millis ← int64 (millis + term)
    parseDayTime.loop value first last (index + 1) pos millis
  else
    .ok (millis, pos)
termination_by last + 1 - index

/-- Source: `IntervalParser.cpp` `parseDayTime`. -/
def parseDayTime (value : List Char) (pos first last : ℕ) : ParseResult ℤ := do
  let (millis, pos) ← parseDayTime.loop value first last first pos 0
  checkEnd value pos
  .ok millis

/-- The last checks of `parseYearMonth`. -/
def parseYearMonth.finish (value : List Char) (pos : ℕ) (months : ℤ) : ParseResult ℤ :=
  if months > kMaxInt32 then
    raise s!"Total exceeds {kMaxInt32} months"
  else do
    checkEnd value pos
    .ok months

/-- Source: `IntervalParser.cpp` `parseYearMonth`. -/
def parseYearMonth (value : List Char) (pos : ℕ) (start last : IntervalField) :
    ParseResult ℤ :=
  if pos = value.length then
    .ok 0
  else do
    let (firstField, pos) ← readField value pos start
    let months ← if start = .year then int64 (firstField * 12) else .ok firstField
    if start ≠ last ∧ pos < value.length then
      let pos ← readSeparator value pos .hyphen start last
      let (lastField, pos) ← readField value pos last
      let months ← int64 (months + lastField)
      parseYearMonth.finish value pos months
    else
      parseYearMonth.finish value pos months

/-! ### The parser -/

/-- The two typed constants: `INTERVAL_YEAR_MONTH` and `INTERVAL_DAY_TIME`. -/
inductive IntervalConstant
  | yearMonth (months : ℤ)
  | dayTime (millis : ℤ)
deriving DecidableEq

/-- The value of the group that the qualifier starts with. -/
def parseGroup (value : List Char) (pos : ℕ) (start last : IntervalField) (yearMonth : Bool) :
    ParseResult ℤ :=
  if yearMonth then
    parseYearMonth value pos start last
  else
    match dayTimeField start, dayTimeField last with
    | some first, some last => parseDayTime value pos first last
    | _, _ => raise "unreachable"

/-- The value of a literal whose qualifier has passed its checks: the second half of `parse`. -/
def parseValue (literal : IntervalLiteral) (last : IntervalField) (qualifier : String) :
    Except (Stop PrestoSqlError) IntervalConstant :=
  let value := literal.value
  let yearMonth := literal.isYearToMonth
  let minus := value.head? == some '-'
  let pos := if minus then 1 else 0
  let outer : ℤ := if literal.sign = .positive then 1 else -1
  let sign := if minus then -outer else outer
  match parseGroup value pos literal.startField last yearMonth with
  | .ok parsed => do
    let signed ← int64 (sign * parsed)
    .ok (if yearMonth then .yearMonth (toInt32 signed) else .dayTime signed)
  | .error (.raised error) =>
    raise (semanticError literal.location value
      s!"Invalid INTERVAL {qualifier} value: {String.ofList value}; {error}")
  | .error .pastEnd => .error .pastEnd
  | .error .overflow => .error .overflow

/-- Source: `IntervalParser.cpp` `IntervalParser::parse`. -/
def parse (literal : IntervalLiteral) : Except (Stop PrestoSqlError) IntervalConstant :=
  let start := literal.startField
  let last := literal.endField.getD start
  let qualifier := if start = last then start.name else s!"{start.name} TO {last.name}"
  let yearMonth := literal.isYearToMonth
  let endYearMonth := last == .year || last == .month
  if yearMonth ≠ endYearMonth then
    raise (semanticError literal.location literal.value
      (s!"Invalid INTERVAL qualifier: {qualifier}; fields must belong to the same group" ++
        s!": {yearMonth} vs {endYearMonth}"))
  else if ¬ start.rank ≤ last.rank then
    raise (semanticError literal.location literal.value
      (s!"Invalid INTERVAL qualifier: {qualifier}; fields must go from largest to smallest" ++
        s!": {start.name} vs {last.name}"))
  else
    parseValue literal last qualifier

end Verax.Literals
