import Verax.Literals.IntervalParser
import Mathlib.Data.List.TakeWhile
import Mathlib.Tactic.Ring
import Mathlib.Tactic.NormNum
import Mathlib.Tactic.SplitIfs
import Mathlib.Tactic.IntervalCases

/-!
# The interval literals that are parsed

The grammar that is documented for interval literals, and the parser against it.

* `WritesField`, `WritesRest`, `Writes`: the texts of a field, of the fields after it, of a value.
* `readField_safely`, `readField_complete`: one field.
* `loop_safely`, `loop_complete`: the fields of a day-time value; the same for year-month.
* `parse_exact`: the literals that are accepted, their values, and no fault on any literal.
-/

namespace Verax.Literals

open Lib.Reading

/-! ### The documented grammar -/

/-- The optional plus sign of a field. -/
def plusSign (signed : Bool) : List Char := if signed then ['+'] else []

/-- What a field contributes for each unit of its value: months, or milliseconds. The value of the
seconds is already in milliseconds. -/
def unit : IntervalField → ℕ
  | .year => 12
  | .month => 1
  | .day => 24 * 60 * 60 * 1000
  | .hour => 60 * 60 * 1000
  | .minute => 60 * 1000
  | .second => 1

/-- The text writes a field of this value: an optional plus sign and at most ten digits. Seconds
are in milliseconds, may have a fraction after fewer than ten digits, and may then leave out their
integer part. -/
inductive WritesField : IntervalField → List Char → ℕ → Prop
  | integer {field : IntervalField} (signed : Bool) {digits : List Char} (hfield : field ≠ .second)
      (hdigits : Digits digits) (hsome : digits ≠ []) (hmany : digits.length ≤ 10)
      (hmax : numeral digits ≤ 2147483647) :
      WritesField field (plusSign signed ++ digits) (numeral digits)
  | seconds (signed : Bool) {digits : List Char} (hdigits : Digits digits) (hsome : digits ≠ [])
      (hmany : digits.length ≤ 10) (hmax : numeral digits ≤ 2147483647) :
      WritesField .second (plusSign signed ++ digits) (numeral digits * 1000)
  | fraction (signed : Bool) {digits fraction : List Char} (hdigits : Digits digits)
      (hfraction : Digits fraction) (hsome : digits ≠ [] ∨ fraction ≠ [])
      (hpoint : digits.length < 10) (hmany : digits.length + fraction.length ≤ 10)
      (hmax : numeral digits ≤ 2147483647) :
      WritesField .second (plusSign signed ++ digits ++ '.' :: fraction)
        (numeral digits * 1000 + numeral fraction * 1000 / 10 ^ fraction.length)

/-- The character between a field and the field before it. -/
def separator : IntervalField → Char
  | .year | .month => '-'
  | .day | .hour => ' '
  | .minute | .second => ':'

/-- The text writes a prefix of these fields, each after its separator. -/
inductive WritesRest : List IntervalField → List Char → ℕ → Prop
  | done {fields : List IntervalField} : WritesRest fields [] 0
  | more {field : IntervalField} {fields : List IntervalField} {text rest : List Char}
      {amount total : ℕ} (hfield : WritesField field text amount)
      (hrest : WritesRest fields rest total) :
      WritesRest (field :: fields) (separator field :: text ++ rest) (amount * unit field + total)

/-- The text writes a prefix of these fields. -/
inductive Writes : List IntervalField → List Char → ℕ → Prop
  | empty {fields : List IntervalField} : Writes fields [] 0
  | first {field : IntervalField} {fields : List IntervalField} {text rest : List Char}
      {amount total : ℕ} (hfield : WritesField field text amount)
      (hrest : WritesRest fields rest total) :
      Writes (field :: fields) (text ++ rest) (amount * unit field + total)

/-- The fields of a group, from the largest to the smallest unit. -/
def group : IntervalField → List IntervalField
  | .year | .month => [.year, .month]
  | .day | .hour | .minute | .second => [.day, .hour, .minute, .second]

/-- The fields of a qualifier. -/
def qualifierFields (start last : IntervalField) : List IntervalField :=
  (group start).filter fun field => start.rank ≤ field.rank ∧ field.rank ≤ last.rank

/-- Both fields belong to one group, in its order. -/
def ValidQualifier (start last : IntervalField) : Prop :=
  last ∈ group start ∧ start.rank ≤ last.rank

/-- The value is in the documented grammar: an optional minus sign and a prefix of the qualifier's
fields; the months of a year-month value are limited. -/
def InGrammar (start last : IntervalField) (value : List Char) (negative : Bool) (total : ℕ) :
    Prop :=
  ∃ body, value = (if negative then ['-'] else []) ++ body ∧
    Writes (qualifierFields start last) body total ∧
    (group start = [.year, .month] → total ≤ 2147483647)

/-! ### Looking ahead -/

section Readers

variable {value rest : List Char} {pos : ℕ}

lemma isAt_eq (hrest : value.drop pos = rest) (c : Char) :
    isAt value pos c = .ok (rest.head? == some c) := by
  rcases rest with _ | ⟨a, rest⟩
  · have hlen := length_le_of_drop_nil hrest
    simp [isAt, Nat.not_lt.mpr hlen]
  · simp [isAt, lt_length_of_drop hrest, readAt_of_drop hrest]

/-! ### Digits -/

lemma digits_takeWhile (text : List Char) : Digits (text.takeWhile isDigit) :=
  fun _ hc => List.mem_takeWhile_imp hc

lemma head_dropWhile (text : List Char) :
    ∀ c ∈ (text.dropWhile isDigit).head?, isDigit c = false := by
  intro c hc
  have h := List.head?_dropWhile_not isDigit text
  rw [Option.mem_def.mp hc] at h
  simpa using h

/-- The loop of `readNumber` takes the digits it is at, if there are not too many. -/
lemma readNumberLoop_eq (field : IntervalField) {start : ℕ} {digits : List Char}
    (hdigits : Digits digits) (hrest : ∀ c ∈ rest.head?, isDigit c = false) :
    ∀ {pos number : ℕ}, value.drop pos = digits ++ rest → start ≤ pos → pos - start ≤ 10 →
      number < 10 ^ (pos - start) →
      (pos - start + digits.length ≤ 10 →
        readNumber.loop value field start pos number =
          .ok ((Nat.ofDigitChars 10 digits number : ℕ), pos + digits.length)) ∧
      (10 < pos - start + digits.length →
        ∃ message, readNumber.loop value field start pos number = raise message) := by
  induction digits with
  | nil =>
    intro pos number hdrop hstart hmany hnumber
    refine ⟨fun _ => ?_, fun h => absurd h (by simpa using hmany)⟩
    rw [readNumber.loop]
    rcases rest with _ | ⟨a, rest⟩
    · have hlen := length_le_of_drop_nil hdrop
      simp [Nat.not_lt.mpr hlen]
    · simp [lt_length_of_drop hdrop, readAt_of_drop hdrop, hrest a rfl]
  | cons c digits ih =>
    intro pos number hdrop hstart hmany hnumber
    obtain ⟨hc, hdigits⟩ := hdigits.cons
    have hd := digit_lt hc
    rw [readNumber.loop, if_pos (lt_length_of_drop hdrop), readAt_of_drop hdrop, ok_bind,
      if_pos hc]
    rcases Nat.lt_or_eq_of_le hmany with hlt | heq
    · have hpow : (10 : ℕ) ^ (pos - start) ≤ 10 ^ 9 :=
        Nat.pow_le_pow_right (by omega) (by omega)
      have hstep : 10 * number + digit c < 10 ^ (pos + 1 - start) := by
        rw [show pos + 1 - start = pos - start + 1 by omega, Nat.pow_succ]
        omega
      obtain ⟨hok, herror⟩ := ih hdigits (drop_of_drop_cons hdrop)
        (show start ≤ pos + 1 by omega) (by omega) hstep
      have hnext : ((number : ℤ) * 10 + digit c) = ((10 * number + digit c : ℕ) : ℤ) := by
        push_cast
        ring
      rw [if_neg (by simp only [kMaxDigits]; omega), int64_eq (by omega) (by omega), ok_bind,
        digit_cast hc, int64_eq (by omega) (by omega), ok_bind, hnext]
      refine ⟨fun h => ?_, fun h => herror (by simp only [List.length_cons] at h; omega)⟩
      rw [hok (by simp only [List.length_cons] at h; omega), Nat.ofDigitChars_cons,
        List.length_cons, show pos + (digits.length + 1) = pos + 1 + digits.length by omega]
      rfl
    · refine ⟨fun h => absurd h (by simp only [List.length_cons]; omega), fun _ => ?_⟩
      rw [if_pos (by simpa [kMaxDigits] using heq)]
      exact ⟨_, rfl⟩

/-- What `readNumber` accepts: the digits it is at and the text after them. -/
def Number (field : IntervalField) (digits rest : List Char) : Prop :=
  digits.length ≤ 10 ∧ (digits ≠ [] ∨ (field = .second ∧ rest.head? = some '.')) ∧
    numeral digits ≤ 2147483647

lemma readNumber_cases (field : IntervalField) {digits : List Char} (hdigits : Digits digits)
    (hrest : ∀ c ∈ rest.head?, isDigit c = false) (hdrop : value.drop pos = digits ++ rest) :
    (Number field digits rest →
      readNumber value pos field = .ok ((numeral digits : ℕ), pos + digits.length)) ∧
    (¬ Number field digits rest → ∃ message, readNumber value pos field = raise message) := by
  obtain ⟨hok, herror⟩ := readNumberLoop_eq field hdigits hrest hdrop (le_refl pos)
    (show pos - pos ≤ 10 by omega) (show 0 < 10 ^ (pos - pos) by simp)
  rw [Nat.sub_self, Nat.zero_add, Nat.cast_zero] at hok herror
  rcases Nat.lt_or_ge 10 digits.length with hmany | hmany
  · obtain ⟨message, hmessage⟩ := herror hmany
    refine ⟨fun h => absurd h.1 (by omega), fun _ => ⟨message, ?_⟩⟩
    simp only [readNumber, hmessage, raise_bind]
  have hafter : value.drop (pos + digits.length) = rest := drop_of_drop_append hdrop
  have hempty : pos + digits.length = pos ↔ digits = [] := by
    rw [← List.length_eq_zero_iff]
    omega
  have hmax : ((numeral digits : ℕ) : ℤ) > kMaxInt32 ↔ ¬ numeral digits ≤ 2147483647 := by
    simp only [kMaxInt32]
    omega
  have hread : readNumber value pos field =
      if digits = [] ∧ ¬ (field = .second ∧ rest.head? = some '.') then
        raise s!"Expected digits in the {field.name} field"
      else if (numeral digits : ℤ) > kMaxInt32 then
        raise s!"The {field.name} field exceeds {kMaxInt32}"
      else .ok ((numeral digits : ℤ), pos + digits.length) := by
    have hloop : readNumber.loop value field pos pos 0 =
        .ok ((numeral digits : ℤ), pos + digits.length) := hok hmany
    simp only [readNumber, hloop, ok_bind, hempty, isAt_eq hafter]
    rcases Decidable.em (digits = [] ∧ field = .second) with hboth | hneither
    · simp only [if_pos hboth, beq_iff_eq]
    · rw [if_neg hneither]
      rcases not_and_or.mp hneither with h | h <;> simp [h]
  rw [hread]
  constructor
  · rintro ⟨-, hsome, hle⟩
    rw [if_neg (by tauto), if_neg (by rw [hmax]; tauto)]
  · intro hnot
    split_ifs with hnone hbig
    · exact ⟨_, rfl⟩
    · exact ⟨_, rfl⟩
    · exact absurd ⟨hmany, by tauto, by rw [hmax] at hbig; omega⟩ hnot

/-! ### Fractions -/

/-- The loop of `readMillis` keeps the first three digits. -/
lemma readMillisLoop_eq (integerDigits : ℕ) {start : ℕ} {digits : List Char}
    (hdigits : Digits digits) (hrest : ∀ c ∈ rest.head?, isDigit c = false) :
    ∀ {pos millis : ℕ}, value.drop pos = digits ++ rest → start ≤ pos →
      integerDigits + (pos - start) ≤ 10 → millis < 10 ^ min (pos - start) 3 →
      (integerDigits + (pos - start) + digits.length ≤ 10 →
        readMillis.loop value integerDigits start pos millis =
          .ok ((Nat.ofDigitChars 10 (digits.take (3 - (pos - start))) millis : ℕ),
            pos + digits.length)) ∧
      (10 < integerDigits + (pos - start) + digits.length →
        ∃ message, readMillis.loop value integerDigits start pos millis = raise message) := by
  induction digits with
  | nil =>
    intro pos millis hdrop hstart hmany hmillis
    refine ⟨fun _ => ?_, fun h => absurd h (by simpa using hmany)⟩
    rw [readMillis.loop]
    rcases rest with _ | ⟨a, rest⟩
    · have hlen := length_le_of_drop_nil hdrop
      simp [Nat.not_lt.mpr hlen]
    · simp [lt_length_of_drop hdrop, readAt_of_drop hdrop, hrest a rfl]
  | cons c digits ih =>
    intro pos millis hdrop hstart hmany hmillis
    obtain ⟨hc, hdigits⟩ := hdigits.cons
    have hd := digit_lt hc
    rw [readMillis.loop, if_pos (lt_length_of_drop hdrop), readAt_of_drop hdrop, ok_bind,
      if_pos hc]
    rcases Nat.lt_or_eq_of_le hmany with hlt | heq
    · rw [if_neg (by simp only [kMaxDigits]; omega)]
      have hbound : millis < 1000 :=
        hmillis.trans_le (Nat.pow_le_pow_right (by omega) (Nat.min_le_right _ 3))
      rcases Nat.lt_or_ge (pos - start) 3 with hfew | hfull
      · have hstep : 10 * millis + digit c < 10 ^ min (pos + 1 - start) 3 := by
          rw [Nat.min_eq_left (by omega)] at hmillis
          rw [Nat.min_eq_left (by omega), show pos + 1 - start = pos - start + 1 by omega,
            Nat.pow_succ]
          omega
        obtain ⟨hok, herror⟩ := ih hdigits (drop_of_drop_cons hdrop)
          (show start ≤ pos + 1 by omega) (by omega) hstep
        have hnext : ((millis : ℤ) * 10 + digit c) = ((10 * millis + digit c : ℕ) : ℤ) := by
          push_cast
          ring
        rw [if_pos hfew, int64_eq (by omega) (by omega), ok_bind, digit_cast hc,
          int64_eq (by omega) (by omega), ok_bind, hnext]
        refine ⟨fun h => ?_, fun h => herror (by simp only [List.length_cons] at h; omega)⟩
        refine (hok (by simp only [List.length_cons] at h; omega)).trans ?_
        rw [List.length_cons,
          show 3 - (pos - start) = 3 - (pos + 1 - start) + 1 by omega, List.take_succ_cons,
          Nat.ofDigitChars_cons, show pos + (digits.length + 1) = pos + 1 + digits.length by omega]
        rfl
      · have hsame : millis < 10 ^ min (pos + 1 - start) 3 := by
          rwa [Nat.min_eq_right (by omega)] at hmillis ⊢
        obtain ⟨hok, herror⟩ := ih hdigits (drop_of_drop_cons hdrop)
          (show start ≤ pos + 1 by omega) (by omega) hsame
        rw [if_neg (by omega), ok_bind]
        refine ⟨fun h => ?_, fun h => herror (by simp only [List.length_cons] at h; omega)⟩
        refine (hok (by simp only [List.length_cons] at h; omega)).trans ?_
        rw [List.length_cons, show 3 - (pos - start) = 0 by omega,
          show 3 - (pos + 1 - start) = 0 by omega,
          show pos + (digits.length + 1) = pos + 1 + digits.length by omega]
        rfl
    · refine ⟨fun h => absurd h (by simp only [List.length_cons]; omega), fun _ => ?_⟩
      rw [if_pos (by simpa [kMaxDigits] using heq)]
      exact ⟨_, rfl⟩

/-- A short fraction is scaled to three digits. -/
lemma scale_eq : ∀ {digits millis : ℕ}, millis < 10 ^ min digits 3 →
    readMillis.scale digits millis = .ok ((millis * 10 ^ (3 - digits) : ℕ) : ℤ) := by
  intro digits millis hmillis
  induction hleft : 3 - digits generalizing digits millis with
  | zero =>
    rw [readMillis.scale, if_neg (by omega)]
    simp
  | succ left ih =>
    have hbound : millis < 1000 :=
      hmillis.trans_le (Nat.pow_le_pow_right (by omega) (Nat.min_le_right _ 3))
    have hstep : millis * 10 < 10 ^ min (digits + 1) 3 := by
      rw [Nat.min_eq_left (by omega)] at hmillis
      rw [Nat.min_eq_left (by omega), Nat.pow_succ]
      omega
    have hrec := ih hstep (show 3 - (digits + 1) = left by omega)
    rw [readMillis.scale, if_pos (by omega), int64_eq (by omega) (by omega), ok_bind]
    rw [Nat.cast_mul, Nat.cast_ofNat] at hrec
    rw [hrec, Nat.pow_succ, Nat.mul_comm (10 ^ left) 10, Nat.mul_assoc]

/-- Keeping three digits and scaling is truncation to thousandths. -/
lemma thousandths {fraction : List Char} (hfraction : Digits fraction) :
    numeral (fraction.take 3) * 10 ^ (3 - fraction.length) =
      numeral fraction * 1000 / 10 ^ fraction.length := by
  rcases Nat.lt_or_ge fraction.length 3 with hshort | hlong
  · rw [List.take_of_length_le (by omega)]
    refine (Nat.div_eq_of_eq_mul_left (by positivity) ?_).symm
    rw [Nat.mul_assoc, ← Nat.pow_add, Nat.sub_add_cancel hshort.le]
  · have hsplit : numeral fraction =
        10 ^ (fraction.length - 3) * numeral (fraction.take 3) + numeral (fraction.drop 3) := by
      conv_lhs => rw [← List.take_append_drop 3 fraction]
      rw [numeral, Nat.ofDigitChars_append, Nat.ofDigitChars_eq_ofDigitChars_zero,
        List.length_drop]
      rfl
    have hlow : numeral (fraction.drop 3) < 10 ^ (fraction.length - 3) := by
      have h : numeral (fraction.drop 3) < 10 ^ (fraction.drop 3).length :=
        numeral_lt fun c hc => hfraction c (List.mem_of_mem_drop hc)
      rwa [List.length_drop] at h
    have hpow : (10 : ℕ) ^ fraction.length = 10 ^ (fraction.length - 3) * 1000 := by
      conv_lhs => rw [← Nat.sub_add_cancel hlong, Nat.pow_add]
    rw [Nat.sub_eq_zero_of_le hlong, Nat.pow_zero, Nat.mul_one, hpow,
      Nat.mul_div_mul_right _ _ (by norm_num), hsplit, Nat.mul_add_div (by positivity),
      Nat.div_eq_of_lt hlow, Nat.add_zero]

lemma thousandths_lt {fraction : List Char} (hfraction : Digits fraction) :
    numeral fraction * 1000 / 10 ^ fraction.length < 1000 := by
  rw [Nat.div_lt_iff_lt_mul (by positivity), Nat.mul_comm]
  exact Nat.mul_lt_mul_of_pos_left (numeral_lt hfraction) (by norm_num)

/-- What `readMillis` accepts after a decimal point. -/
def Fraction (integerDigits : ℕ) (fraction : List Char) : Prop :=
  integerDigits < 10 ∧ integerDigits + fraction.length ≤ 10 ∧ (integerDigits ≠ 0 ∨ fraction ≠ [])

lemma readMillis_none (integerDigits : ℕ) (hdrop : value.drop pos = rest)
    (hpoint : rest.head? ≠ some '.') : readMillis value pos integerDigits = .ok (0, pos) := by
  have hfalse : (rest.head? == some '.') = false := by simpa using hpoint
  simp only [readMillis, isAt_eq hdrop, hfalse, ok_bind, if_true]

lemma readMillis_cases (integerDigits : ℕ) {fraction : List Char} (hfraction : Digits fraction)
    (hrest : ∀ c ∈ rest.head?, isDigit c = false)
    (hdrop : value.drop pos = '.' :: (fraction ++ rest)) :
    (Fraction integerDigits fraction →
      readMillis value pos integerDigits =
        .ok ((numeral fraction * 1000 / 10 ^ fraction.length : ℕ), pos + 1 + fraction.length)) ∧
    (¬ Fraction integerDigits fraction →
      ∃ message, readMillis value pos integerDigits = raise message) := by
  have hpoint : isAt value pos '.' = .ok true := by rw [isAt_eq hdrop]; rfl
  rcases Nat.lt_or_ge integerDigits 10 with hfew | hfull
  swap
  · refine ⟨fun h => absurd h.1 (by omega), fun _ => ?_⟩
    simp only [readMillis, hpoint, ok_bind, kMaxDigits, Bool.true_eq_false, if_false]
    exact ⟨_, if_pos hfull⟩
  have hzero : pos + 1 - (pos + 1) = 0 := Nat.sub_self _
  obtain ⟨hok, herror⟩ := readMillisLoop_eq integerDigits hfraction hrest
    (drop_of_drop_cons hdrop) (le_refl (pos + 1)) (show _ ≤ 10 by omega)
    (show 0 < 10 ^ min (pos + 1 - (pos + 1)) 3 by simp)
  rw [hzero, Nat.add_zero, Nat.cast_zero] at hok herror
  rcases Nat.lt_or_ge 10 (integerDigits + fraction.length) with hmany | hmany
  · obtain ⟨message, hmessage⟩ := herror hmany
    refine ⟨fun h => absurd h.2.1 (by omega), fun _ => ⟨message, ?_⟩⟩
    simp only [readMillis, hpoint, ok_bind, kMaxDigits, if_neg (Nat.not_le.mpr hfew), hmessage,
      Bool.true_eq_false, if_false, raise_bind]
  have hloop : readMillis.loop value integerDigits (pos + 1) (pos + 1) 0 =
      .ok ((numeral (fraction.take 3) : ℤ), pos + 1 + fraction.length) := hok hmany
  have hscale : readMillis.scale fraction.length (numeral (fraction.take 3) : ℤ) =
      .ok ((numeral fraction * 1000 / 10 ^ fraction.length : ℕ) : ℤ) := by
    have h : numeral (fraction.take 3) < 10 ^ (fraction.take 3).length :=
      numeral_lt fun c hc => hfraction c (List.mem_of_mem_take hc)
    rw [List.length_take, Nat.min_comm] at h
    rw [scale_eq h, thousandths hfraction]
  have hread : readMillis value pos integerDigits =
      if integerDigits = 0 ∧ fraction = [] then raise "Expected digits in the SECOND field"
      else .ok (((numeral fraction * 1000 / 10 ^ fraction.length : ℕ) : ℤ),
        pos + 1 + fraction.length) := by
    have hempty : pos + 1 + fraction.length = pos + 1 ↔ fraction = [] := by
      rw [← List.length_eq_zero_iff]
      omega
    simp only [readMillis, hpoint, ok_bind, kMaxDigits, if_neg (Nat.not_le.mpr hfew), hloop,
      Bool.true_eq_false, if_false, hempty, Nat.add_sub_cancel_left, hscale]
  rw [hread]
  constructor
  · rintro ⟨-, -, hsome⟩
    rw [if_neg (by tauto)]
  · intro hnot
    split_ifs with hnone
    · exact ⟨_, rfl⟩
    · exact absurd ⟨hfew, hmany, by tauto⟩ hnot

/-! ### Fields -/

/-- The text at a position, split at the digits it starts with. -/
lemma exists_digits (text : List Char) : ∃ digits rest, text = digits ++ rest ∧ Digits digits ∧
    ∀ c ∈ rest.head?, isDigit c = false :=
  ⟨_, _, (List.takeWhile_append_dropWhile (p := isDigit) (l := text)).symm,
    digits_takeWhile text, head_dropWhile text⟩

lemma readNumber_safely (value : List Char) (pos : ℕ) (field : IntervalField) :
    Safely (readNumber value pos field) fun result => ∃ digits : List Char,
      result = ((numeral digits : ℤ), pos + digits.length) ∧ Digits digits ∧
        Number field digits (value.drop (pos + digits.length)) ∧
        value.drop pos = digits ++ value.drop (pos + digits.length) := by
  obtain ⟨digits, rest, hdrop, hdigits, hrest⟩ := exists_digits (value.drop pos)
  have hafter := drop_of_drop_append hdrop
  obtain ⟨hok, herror⟩ := readNumber_cases field hdigits hrest hdrop
  by_cases hnumber : Number field digits rest
  · exact Safely.of_eq (hok hnumber) ⟨digits, rfl, hdigits, hafter ▸ hnumber, hafter ▸ hdrop⟩
  · obtain ⟨message, hmessage⟩ := herror hnumber
    exact hmessage ▸ Safely.raise message

lemma readMillis_safely (value : List Char) (pos integerDigits : ℕ) :
    Safely (readMillis value pos integerDigits) fun result =>
      (result = (0, pos) ∧ (value.drop pos).head? ≠ some '.') ∨
        ∃ fraction : List Char,
          result = (((numeral fraction * 1000 / 10 ^ fraction.length : ℕ) : ℤ),
            pos + 1 + fraction.length) ∧ Digits fraction ∧ Fraction integerDigits fraction ∧
          value.drop pos = '.' :: (fraction ++ value.drop (pos + 1 + fraction.length)) := by
  by_cases hpoint : (value.drop pos).head? = some '.'
  · obtain ⟨tail, htail⟩ := List.head?_eq_some_iff.mp hpoint
    obtain ⟨fraction, rest, rfl, hfraction, hrest⟩ := exists_digits tail
    have hafter := drop_of_drop_append (drop_of_drop_cons htail)
    obtain ⟨hok, herror⟩ := readMillis_cases integerDigits hfraction hrest htail
    by_cases hmillis : Fraction integerDigits fraction
    · exact Safely.of_eq (hok hmillis)
        (.inr ⟨fraction, rfl, hfraction, hmillis, hafter.symm ▸ htail⟩)
    · obtain ⟨message, hmessage⟩ := herror hmillis
      exact hmessage ▸ Safely.raise message
  · exact Safely.of_eq (readMillis_none integerDigits rfl hpoint) (.inl ⟨rfl, hpoint⟩)

/-- The readers of a field, after its plus sign. -/
lemma readField_eq {signed : Bool} {after : List Char} (field : IntervalField)
    (hdrop : value.drop pos = plusSign signed ++ after)
    (hsigned : signed = false → after.head? ≠ some '+') :
    readField value pos field =
      if after.head? = some '-' then raise s!"The {field.name} field must be non-negative"
      else (do
        let (number, stop) ← readNumber value (pos + (plusSign signed).length) field
        if field = .second then
          let (millis, stop) ← readMillis value stop (stop - (pos + (plusSign signed).length))
          let seconds ← int64 (number * 1000)
          let total ← int64 (seconds + millis)
          .ok (total, stop)
        else
          .ok (number, stop)) := by
  have hplus : isAt value pos '+' = .ok signed := by
    rw [isAt_eq hdrop]
    cases signed
    · simpa [plusSign] using hsigned rfl
    · rfl
  have hpos : (if signed = true then pos + 1 else pos) = pos + (plusSign signed).length := by
    cases signed <;> rfl
  simp only [readField, hplus, ok_bind, hpos, isAt_eq (drop_of_drop_append hdrop), beq_iff_eq]

lemma exists_plusSign (text : List Char) : ∃ signed after, text = plusSign signed ++ after ∧
    (signed = false → after.head? ≠ some '+') := by
  rcases text with _ | ⟨c, text⟩
  · exact ⟨false, [], rfl, by simp⟩
  · by_cases hc : c = '+'
    · exact ⟨true, text, by simp [plusSign, hc], by simp⟩
    · exact ⟨false, c :: text, rfl, by simpa using hc⟩

/-- A field that is read is written in the text, and nothing faults. -/
lemma readField_safely (value : List Char) (pos : ℕ) (field : IntervalField) :
    Safely (readField value pos field) fun result => ∃ (text : List Char) (amount : ℕ),
      result = ((amount : ℤ), pos + text.length) ∧ WritesField field text amount ∧
        value.drop pos = text ++ value.drop (pos + text.length) := by
  obtain ⟨signed, after, hdrop, hsigned⟩ := exists_plusSign (value.drop pos)
  have hafter : value.drop (pos + (plusSign signed).length) = after := drop_of_drop_append hdrop
  rw [readField_eq field hdrop hsigned]
  by_cases hminus : after.head? = some '-'
  · rw [if_pos hminus]
    exact Safely.raise _
  rw [if_neg hminus]
  refine (readNumber_safely value _ field).bind ?_
  rintro ⟨_, _⟩ ⟨digits, ⟨⟩, hdigits, ⟨hmany, hsome, hmax⟩, hdigit⟩
  by_cases hsecond : field = .second
  swap
  · simp only [if_neg hsecond]
    refine Safely.ok ⟨plusSign signed ++ digits, numeral digits, ?_, .integer signed hsecond hdigits
      (by tauto) hmany hmax, ?_⟩
    · rw [List.length_append, Nat.add_assoc]
    · rw [hdrop, ← hafter, List.length_append, List.append_assoc, ← Nat.add_assoc, ← hdigit]
  subst hsecond
  simp only [if_true, Nat.add_sub_cancel_left]
  refine (readMillis_safely value _ _).bind ?_
  rintro _ (⟨rfl, hpoint⟩ | ⟨fraction, rfl, hfraction, ⟨hfew, hboth, hsome'⟩, hpoint⟩)
  · dsimp only
    rw [int64_eq (by omega) (by omega), ok_bind, int64_eq (by omega) (by omega), ok_bind]
    refine Safely.ok ⟨plusSign signed ++ digits, numeral digits * 1000, ?_, .seconds signed hdigits
      (by tauto) hmany hmax, ?_⟩
    · rw [List.length_append, Nat.add_assoc, Int.add_zero, Nat.cast_mul, Nat.cast_ofNat]
    · rw [hdrop, ← hafter, List.length_append, List.append_assoc, ← Nat.add_assoc, ← hdigit]
  · obtain ⟨millis, hmillis⟩ : ∃ millis, millis = numeral fraction * 1000 / 10 ^ fraction.length :=
      ⟨_, rfl⟩
    have hlt : millis < 1000 := hmillis ▸ thousandths_lt hfraction
    have hlength : (plusSign signed ++ digits ++ '.' :: fraction).length =
        (plusSign signed).length + digits.length + 1 + fraction.length := by
      simp only [List.length_append, List.length_cons]
      omega
    dsimp only
    rw [← hmillis, int64_eq (by omega) (by omega), ok_bind, int64_eq (by omega) (by omega), ok_bind]
    refine Safely.ok ⟨plusSign signed ++ digits ++ '.' :: fraction, numeral digits * 1000 + millis,
      ?_, hmillis ▸ .fraction signed hdigits hfraction ?_ hfew hboth hmax, ?_⟩
    · rw [hlength, ← Nat.add_assoc, ← Nat.add_assoc, ← Nat.add_assoc]
      push_cast
      rfl
    · rw [hlength, ← Nat.add_assoc, ← Nat.add_assoc, ← Nat.add_assoc, hdrop, ← hafter, hdigit,
        hpoint]
      simp
    · simpa [List.length_eq_zero_iff] using hsome'

/-- What follows a field: the end of the value, or a character that no field goes on with. -/
def Stops (rest : List Char) : Prop := ∀ c ∈ rest.head?, isDigit c = false ∧ c ≠ '.'

/-- A number starts with a digit or a decimal point. -/
lemma readField_number {field : IntervalField} {signed : Bool} {digits : List Char}
    (hdigits : Digits digits) (hnumber : Number field digits rest)
    (hrest : ∀ c ∈ rest.head?, isDigit c = false)
    (hdrop : value.drop pos = plusSign signed ++ digits ++ rest) :
    readField value pos field =
      (if field = .second then do
        let (millis, stop) ←
          readMillis value (pos + (plusSign signed).length + digits.length) digits.length
        let seconds ← int64 ((numeral digits : ℤ) * 1000)
        let total ← int64 (seconds + millis)
        .ok (total, stop)
      else .ok ((numeral digits : ℤ), pos + (plusSign signed).length + digits.length)) := by
  rw [List.append_assoc] at hdrop
  have hhead : ∀ c ∈ (digits ++ rest).head?, isDigit c = true ∨ c = '.' := by
    rcases digits with _ | ⟨d, digits⟩
    · intro c hc
      rcases hnumber.2.1 with hsome | ⟨-, hpoint⟩
      · exact absurd rfl hsome
      · exact .inr (Option.some.inj (hc.symm.trans hpoint))
    · rintro c ⟨⟩
      exact .inl hdigits.cons.1
  have hplus : signed = false → (digits ++ rest).head? ≠ some '+' := fun _ h =>
    absurd (hhead _ h) (by decide)
  have hminus : (digits ++ rest).head? ≠ some '-' := fun h => absurd (hhead _ h) (by decide)
  obtain ⟨hok, -⟩ := readNumber_cases field hdigits hrest (drop_of_drop_append hdrop)
  simp only [readField_eq field hdrop hplus, if_neg hminus, hok hnumber, ok_bind,
    Nat.add_sub_cancel_left]

/-- A field that is written in the text, and followed by something else, is read. -/
lemma readField_complete {field : IntervalField} {text : List Char} {amount : ℕ}
    (h : WritesField field text amount) (hstop : Stops rest)
    (hdrop : value.drop pos = text ++ rest) :
    readField value pos field = .ok ((amount : ℤ), pos + text.length) := by
  have hnodigit : ∀ c ∈ rest.head?, isDigit c = false := fun c hc => (hstop c hc).1
  have hnopoint : rest.head? ≠ some '.' := fun hc => (hstop _ hc).2 rfl
  cases h with
  | @integer _ signed digits hfield hdigits hsome hmany hmax =>
    rw [readField_number hdigits ⟨hmany, .inl hsome, hmax⟩ hnodigit hdrop, if_neg hfield,
      List.length_append, Nat.add_assoc]
  | @seconds signed digits hdigits hsome hmany hmax =>
    have hafter : value.drop (pos + (plusSign signed).length + digits.length) = rest := by
      rw [Nat.add_assoc, ← List.length_append]
      exact drop_of_drop_append hdrop
    rw [readField_number hdigits ⟨hmany, .inl hsome, hmax⟩ hnodigit hdrop, if_pos rfl,
      readMillis_none _ hafter hnopoint, ok_bind]
    dsimp only
    rw [int64_eq (by omega) (by omega), ok_bind, int64_eq (by omega) (by omega), ok_bind,
      List.length_append, Nat.add_assoc, Int.add_zero, Nat.cast_mul, Nat.cast_ofNat]
  | @fraction signed digits fraction hdigits hfraction hsome hpoint hmany hmax =>
    rw [List.append_assoc, List.cons_append] at hdrop
    have hafter : value.drop (pos + (plusSign signed).length + digits.length) =
        '.' :: (fraction ++ rest) := by
      rw [Nat.add_assoc, ← List.length_append]
      exact drop_of_drop_append hdrop
    have hlength : (plusSign signed ++ digits ++ '.' :: fraction).length =
        (plusSign signed).length + digits.length + 1 + fraction.length := by
      simp only [List.length_append, List.length_cons]
      omega
    obtain ⟨hok, -⟩ := readMillis_cases digits.length hfraction hnodigit hafter
    have hmillis := hok ⟨hpoint, hmany, by simpa [List.length_eq_zero_iff] using hsome⟩
    have hnumber : Number .second digits ('.' :: (fraction ++ rest)) :=
      ⟨hpoint.le, .inr ⟨rfl, rfl⟩, hmax⟩
    have hlt := thousandths_lt hfraction
    rw [readField_number hdigits hnumber (by rintro c ⟨⟩; rfl) hdrop, if_pos rfl, hmillis, ok_bind]
    dsimp only
    generalize numeral fraction * 1000 / 10 ^ fraction.length = millis at hlt ⊢
    rw [int64_eq (by omega) (by omega), ok_bind, int64_eq (by omega) (by omega), ok_bind, hlength,
      ← Nat.add_assoc, ← Nat.add_assoc, ← Nat.add_assoc]
    push_cast
    rfl

lemma WritesField.ne_nil {field : IntervalField} {text : List Char} {amount : ℕ}
    (h : WritesField field text amount) : text ≠ [] := by
  cases h with
  | integer signed hfield hdigits hsome => simp [hsome]
  | seconds signed hdigits hsome => simp [hsome]
  | fraction => simp

/-! ### Bounds -/

/-- No field contributes more than the largest number of days. -/
lemma WritesField.le {field : IntervalField} {text : List Char} {amount : ℕ}
    (h : WritesField field text amount) : amount * unit field ≤ 2147483647 * 86400000 := by
  cases h with
  | @integer _ _ digits hfield hdigits hsome hmany hmax =>
    have hunit : unit field ≤ 86400000 := by cases field <;> decide
    exact Nat.mul_le_mul hmax hunit
  | seconds signed hdigits hsome hmany hmax =>
    simp only [unit]
    omega
  | fraction signed hdigits hfraction hsome hpoint hmany hmax =>
    have hlt := thousandths_lt hfraction
    simp only [unit]
    omega

lemma WritesRest.le {fields : List IntervalField} {text : List Char} {total : ℕ}
    (h : WritesRest fields text total) : total ≤ fields.length * (2147483647 * 86400000) := by
  induction h with
  | done => exact Nat.zero_le _
  | more hfield hrest ih =>
    have := hfield.le
    rw [List.length_cons, Nat.succ_mul]
    omega

lemma Writes.le {fields : List IntervalField} {text : List Char} {total : ℕ}
    (h : Writes fields text total) : total ≤ fields.length * (2147483647 * 86400000) := by
  cases h with
  | empty => exact Nat.zero_le _
  | first hfield hrest =>
    have := hfield.le
    have := hrest.le
    rw [List.length_cons, Nat.succ_mul]
    omega

/-- What follows a field does not go on with it. -/
lemma WritesRest.stops {fields : List IntervalField} {text : List Char} {total : ℕ}
    (h : WritesRest fields text total) : Stops text := by
  cases h with
  | done => rintro c ⟨⟩
  | @more field =>
    rintro c ⟨⟩
    cases field <;> decide

/-! ### Separators and the end -/

lemma readSeparator_safely (separator : Separator) (previous next : IntervalField)
    (hpos : pos < value.length) :
    Safely (readSeparator value pos separator previous next) fun stop =>
      stop = pos + 1 ∧ value.drop pos = separator.expected :: value.drop (pos + 1) := by
  obtain ⟨c, rest, hdrop⟩ := exists_drop_cons hpos
  rw [readSeparator, readAt_of_drop hdrop, ok_bind]
  split_ifs with hc
  · exact Safely.raise _
  · rw [not_not] at hc
    exact Safely.ok ⟨rfl, by rw [hdrop, drop_of_drop_cons hdrop, hc]⟩

lemma readSeparator_complete {separator : Separator} (previous next : IntervalField)
    (hdrop : value.drop pos = separator.expected :: rest) :
    readSeparator value pos separator previous next = .ok (pos + 1) := by
  rw [readSeparator, readAt_of_drop hdrop, ok_bind, if_neg (not_not.mpr rfl)]

lemma checkEnd_safely (value : List Char) (pos : ℕ) :
    Safely (checkEnd value pos) fun _ => value.drop pos = [] := by
  rw [checkEnd]
  split_ifs with h
  · exact Safely.raise _
  · exact Safely.ok (List.drop_eq_nil_of_le (by omega))

lemma checkEnd_complete (h : value.drop pos = []) : checkEnd value pos = .ok () :=
  if_neg (Nat.not_lt.mpr (length_le_of_drop_nil h))

/-! ### Day-time values -/

/-- The fields of the table between two indexes. -/
def fieldsFrom (index last : ℕ) : List IntervalField :=
  ((kUnits.take (last + 1)).drop index).map Prod.fst

/-- What the table holds at an index. -/
lemma kUnits_index {index last : ℕ} (hindex : index ≤ last) (hlast : last ≤ 3) :
    ∃ field, (readAt kUnits index : ParseResult _) = .ok (field, (unit field : ℤ)) ∧
      fieldsFrom index last = field :: fieldsFrom (index + 1) last ∧
      (0 < index → (if index = 1 then Separator.space else .colon).expected = separator field) := by
  interval_cases last <;> interval_cases index <;> exact ⟨_, rfl, rfl, by decide⟩

/-- The fields after the first one. -/
lemma dayTimeLoop_safely {first last : ℕ} (hlast : last ≤ 3) {index pos millis : ℕ}
    (hfirst : first < index) (hmillis : millis ≤ index * (2147483647 * 86400000)) :
    Safely (parseDayTime.loop value first last index pos millis) fun result =>
      ∃ (text : List Char) (total : ℕ),
        result = (((millis + total : ℕ) : ℤ), pos + text.length) ∧
        WritesRest (fieldsFrom index last) text total ∧
        value.drop pos = text ++ value.drop (pos + text.length) := by
  induction hleft : last + 1 - index generalizing index pos millis with
  | zero =>
    rw [parseDayTime.loop, if_neg (by omega)]
    exact Safely.ok ⟨[], 0, rfl, .done, rfl⟩
  | succ left ih =>
    rw [parseDayTime.loop]
    by_cases hpos : pos < value.length
    swap
    · rw [if_neg (by tauto)]
      exact Safely.ok ⟨[], 0, rfl, .done, rfl⟩
    obtain ⟨field, hread, hfields, hseparator⟩ := kUnits_index (show index ≤ last by omega) hlast
    obtain ⟨previous, hprevious, -, -⟩ := kUnits_index (show index - 1 ≤ last by omega) hlast
    rw [if_pos ⟨by omega, hpos⟩, hread, ok_bind]
    simp only [if_pos hfirst, hprevious, ok_bind]
    refine (readSeparator_safely _ _ _ hpos).bind ?_
    rintro _ ⟨rfl, hsep⟩
    refine (readField_safely value _ field).bind ?_
    rintro _ ⟨text, amount, rfl, hfield, hdrop⟩
    have hle := hfield.le
    rw [hseparator (by omega)] at hsep
    dsimp only
    rw [← Nat.cast_mul]
    generalize hterm : amount * unit field = term at hle ⊢
    have hindex : index ≤ 3 := by omega
    have hbound : index * (2147483647 * 86400000) ≤ 3 * (2147483647 * 86400000) :=
      Nat.mul_le_mul_right _ hindex
    rw [int64_eq (by omega) (by omega), ok_bind, int64_eq (by omega) (by omega), ok_bind,
      ← Nat.cast_add]
    refine (ih (show first < index + 1 by omega) ?_ (by omega)).imp ?_
    · rw [Nat.succ_mul]
      omega
    rintro _ ⟨rest, total, rfl, hrest, hafter⟩
    refine ⟨separator field :: text ++ rest, amount * unit field + total, ?_,
      hfields ▸ .more hfield hrest, ?_⟩
    · rw [hterm, List.length_append, List.length_cons, Nat.add_assoc millis]
      congr 1
      omega
    · rw [List.length_append, List.length_cons, hsep, hdrop, hafter]
      simp only [List.cons_append, List.append_assoc]
      rw [show pos + (text.length + 1 + rest.length) = pos + 1 + text.length + rest.length by omega]

lemma dayTimeLoop_complete {first last : ℕ} (hlast : last ≤ 3) {text : List Char} {total : ℕ}
    {index pos millis : ℕ} (hfirst : first < index)
    (hmillis : millis ≤ index * (2147483647 * 86400000))
    (h : WritesRest (fieldsFrom index last) text total) (hdrop : value.drop pos = text) :
    parseDayTime.loop value first last index pos millis =
      .ok (((millis + total : ℕ) : ℤ), pos + text.length) := by
  induction hleft : last + 1 - index generalizing index pos millis text total with
  | zero =>
    have hnone : fieldsFrom index last = [] := by
      rw [fieldsFrom, List.drop_eq_nil_of_le, List.map_nil]
      exact (List.length_take_le _ _).trans (by omega)
    rw [hnone] at h
    cases h
    rw [parseDayTime.loop, if_neg (by omega)]
    rfl
  | succ left ih =>
    obtain ⟨field, hread, hfields, hseparator⟩ := kUnits_index (show index ≤ last by omega) hlast
    obtain ⟨previous, hprevious, -, -⟩ := kUnits_index (show index - 1 ≤ last by omega) hlast
    rw [hfields] at h
    cases h with
    | done =>
      have hlen := length_le_of_drop_nil hdrop
      rw [parseDayTime.loop, if_neg (by omega)]
      rfl
    | @more _ _ text rest amount total hfield hrest =>
      have hle := hfield.le
      have hsep : value.drop pos =
          (if index = 1 then Separator.space else .colon).expected :: (text ++ rest) := by
        rw [hseparator (by omega), hdrop, List.cons_append]
      have hfollow := drop_of_drop_append (drop_of_drop_cons hsep)
      rw [parseDayTime.loop, if_pos ⟨by omega, lt_length_of_drop hsep⟩, hread, ok_bind]
      simp only [if_pos hfirst, hprevious, ok_bind, readSeparator_complete _ _ hsep,
        readField_complete hfield hrest.stops (drop_of_drop_cons hsep)]
      rw [← Nat.cast_mul]
      generalize amount * unit field = term at hle ⊢
      have hbound : index * (2147483647 * 86400000) ≤ 3 * (2147483647 * 86400000) :=
        Nat.mul_le_mul_right _ (by omega)
      rw [int64_eq (by omega) (by omega), ok_bind, int64_eq (by omega) (by omega), ok_bind,
        ← Nat.cast_add, ih (show first < index + 1 by omega) (by rw [Nat.succ_mul]; omega) hrest
          hfollow (by omega),
        List.length_append, List.length_cons, Nat.add_assoc millis]
      congr 2
      omega

/-- A day-time value that is parsed is written in the text, and nothing faults. -/
lemma parseDayTime_safely (value : List Char) (pos : ℕ) {first last : ℕ} (hfirst : first ≤ last)
    (hlast : last ≤ 3) :
    Safely (parseDayTime value pos first last) fun millis => ∃ total : ℕ,
      millis = total ∧ Writes (fieldsFrom first last) (value.drop pos) total := by
  obtain ⟨field, hread, hfields, -⟩ := kUnits_index hfirst hlast
  rw [parseDayTime, parseDayTime.loop]
  by_cases hpos : pos < value.length
  swap
  · rw [if_neg (by tauto), ok_bind]
    refine (checkEnd_safely value pos).bind fun _ hend => Safely.ok ⟨0, rfl, ?_⟩
    rw [hend]
    exact .empty
  rw [if_pos ⟨hfirst, hpos⟩, hread, ok_bind]
  simp only [if_neg (Nat.lt_irrefl first), ok_bind, bind_assoc]
  refine (readField_safely value _ field).bind ?_
  rintro _ ⟨text, amount, rfl, hfield, hdrop⟩
  have hle := hfield.le
  dsimp only
  rw [← Nat.cast_mul]
  have hbound : 2147483647 * 86400000 ≤ (first + 1) * (2147483647 * 86400000) :=
    Nat.le_mul_of_pos_left _ (by omega)
  generalize hterm : amount * unit field = term at hle ⊢
  rw [int64_eq (by omega) (by omega), ok_bind, Int.zero_add, int64_eq (by omega) (by omega),
    ok_bind]
  refine (dayTimeLoop_safely hlast (Nat.lt_succ_self first) (hle.trans hbound)).bind ?_
  rintro _ ⟨rest, total, rfl, hrest, hafter⟩
  refine (checkEnd_safely value _).bind fun _ hend => Safely.ok ⟨term + total, rfl, ?_⟩
  rw [hdrop, hafter, hend, List.append_nil, hfields, ← hterm]
  exact .first hfield hrest

lemma parseDayTime_complete {first last : ℕ} (hfirst : first ≤ last) (hlast : last ≤ 3)
    {text : List Char} {total : ℕ} (h : Writes (fieldsFrom first last) text total)
    (hdrop : value.drop pos = text) : parseDayTime value pos first last = .ok (total : ℤ) := by
  obtain ⟨field, hread, hfields, -⟩ := kUnits_index hfirst hlast
  rw [hfields] at h
  cases h with
  | empty =>
    have hlen := length_le_of_drop_nil hdrop
    rw [parseDayTime, parseDayTime.loop, if_neg (by omega), ok_bind]
    dsimp only
    rw [checkEnd_complete hdrop]
    rfl
  | @first _ _ text rest amount total hfield hrest =>
    have hle := hfield.le
    have hfollow := drop_of_drop_append hdrop
    have hend : value.drop (pos + text.length + rest.length) = [] :=
      drop_of_drop_append (hfollow.trans (List.append_nil rest).symm)
    have hpos : pos < value.length := by
      by_contra hge
      rw [List.drop_eq_nil_of_le (by omega)] at hdrop
      exact hfield.ne_nil (List.append_eq_nil_iff.mp hdrop.symm).1
    have hbound : 2147483647 * 86400000 ≤ (first + 1) * (2147483647 * 86400000) :=
      Nat.le_mul_of_pos_left _ (by omega)
    rw [parseDayTime, parseDayTime.loop, if_pos ⟨hfirst, hpos⟩, hread, ok_bind]
    simp only [if_neg (Nat.lt_irrefl first), ok_bind,
      readField_complete hfield hrest.stops hdrop]
    rw [← Nat.cast_mul]
    generalize amount * unit field = term at hle ⊢
    rw [int64_eq (by omega) (by omega), ok_bind, Int.zero_add, int64_eq (by omega) (by omega),
      ok_bind, dayTimeLoop_complete hlast (Nat.lt_succ_self first) (hle.trans hbound) hrest hfollow,
      ok_bind, checkEnd_complete hend]
    rfl

/-! ### Year-month values -/

/-- The fields of a year-month qualifier. -/
def yearMonthFields (start last : IntervalField) : List IntervalField :=
  start :: if start = last then [] else [last]

/-- At most one field follows the first one. -/
lemma WritesRest.eq_or {start last : IntervalField} {text : List Char} {total : ℕ}
    (h : WritesRest (if start = last then [] else [last]) text total) :
    (text = [] ∧ total = 0) ∨ (start ≠ last ∧ ∃ text' amount, WritesField last text' amount ∧
      text = separator last :: text' ∧ total = amount * unit last) := by
  split_ifs at h with hsame
  · cases h
    exact .inl ⟨rfl, rfl⟩
  · cases h with
    | done => exact .inl ⟨rfl, rfl⟩
    | @more _ _ text _ amount _ hfield hrest =>
      cases hrest
      exact .inr ⟨hsame, text, amount, hfield, by simp, by simp⟩

lemma WritesField.le_of_ne_second {field : IntervalField} {text : List Char} {amount : ℕ}
    (h : WritesField field text amount) (hfield : field ≠ .second) : amount ≤ 2147483647 := by
  cases h with
  | integer signed hfield hdigits hsome hmany hmax => exact hmax
  | seconds => exact absurd rfl hfield
  | fraction => exact absurd rfl hfield

lemma finish_safely (value : List Char) (pos months : ℕ) :
    Safely (parseYearMonth.finish value pos months) fun result =>
      result = months ∧ months ≤ 2147483647 ∧ value.drop pos = [] := by
  rw [parseYearMonth.finish]
  by_cases hmax : (months : ℤ) > kMaxInt32
  · rw [if_pos hmax]
    exact Safely.raise _
  · rw [if_neg hmax]
    simp only [kMaxInt32] at hmax
    exact (checkEnd_safely value pos).bind fun _ hend => Safely.ok ⟨rfl, by omega, hend⟩

lemma finish_complete {months : ℕ} (hmax : months ≤ 2147483647) (hend : value.drop pos = []) :
    parseYearMonth.finish value pos months = .ok (months : ℤ) := by
  rw [parseYearMonth.finish, if_neg (by simp only [kMaxInt32]; omega), checkEnd_complete hend]
  rfl

/-- The first field of a year-month value, in months. -/
lemma toMonths_eq {start : IntervalField} (hstart : start = .year ∨ start = .month) {amount : ℕ}
    (hle : amount ≤ 2147483647) {α : Type} (next : ℤ → ParseResult α) :
    (if start = .year then int64 ((amount : ℤ) * 12) >>= next
      else (.ok (amount : ℤ) : ParseResult ℤ) >>= next) = next ((amount * unit start : ℕ) : ℤ) := by
  rcases hstart with rfl | rfl
  · rw [if_pos rfl, int64_eq (by omega) (by omega), ok_bind]
    rfl
  · rw [if_neg (by decide), ok_bind, unit, Nat.mul_one]

/-- A year-month value that is parsed is written in the text, and nothing faults. -/
lemma parseYearMonth_safely (value : List Char) (pos : ℕ) {start last : IntervalField}
    (hstart : start = .year ∨ start = .month) (hlast : start = last ∨ last = .month) :
    Safely (parseYearMonth value pos start last) fun months => ∃ total : ℕ,
      months = total ∧ Writes (yearMonthFields start last) (value.drop pos) total ∧
        total ≤ 2147483647 := by
  rw [parseYearMonth]
  by_cases hend : pos = value.length
  · rw [if_pos hend, List.drop_eq_nil_of_le hend.ge]
    exact Safely.ok ⟨0, rfl, .empty, by omega⟩
  rw [if_neg hend]
  refine (readField_safely value pos start).bind ?_
  rintro _ ⟨text, amount, rfl, hfield, hdrop⟩
  have hne : start ≠ .second := by rcases hstart with rfl | rfl <;> decide
  have hle := hfield.le_of_ne_second hne
  dsimp only
  rw [toMonths_eq hstart hle]
  have hunit : amount * unit start ≤ 2147483647 * 12 := by
    rcases hstart with rfl | rfl <;> simp only [unit] <;> omega
  generalize hmonths : amount * unit start = months at hunit ⊢
  split_ifs with hmore
  · refine (readSeparator_safely _ _ _ hmore.2).bind ?_
    rintro _ ⟨rfl, hsep⟩
    refine (readField_safely value _ last).bind ?_
    rintro _ ⟨rest, amount', rfl, hfield', hdrop'⟩
    obtain rfl : last = .month := hlast.resolve_left hmore.1
    have hle' := hfield'.le_of_ne_second (by decide)
    dsimp only
    rw [int64_eq (by omega) (by omega), ok_bind, ← Nat.cast_add]
    refine (finish_safely _ _ _).imp ?_
    rintro _ ⟨rfl, hmax, hafter⟩
    refine ⟨months + amount', rfl, ?_, hmax⟩
    rw [hafter, List.append_nil] at hdrop'
    have hrest : WritesRest [.month] (Separator.hyphen.expected :: rest) amount' := by
      have h : WritesRest [.month] (separator .month :: rest ++ []) (amount' * unit .month + 0) :=
        .more hfield' .done
      rwa [List.append_nil, Nat.add_zero, show unit .month = 1 from rfl, Nat.mul_one] at h
    rw [hdrop, hsep, hdrop', yearMonthFields, if_neg hmore.1, ← hmonths]
    exact .first hfield hrest
  · refine (finish_safely _ _ _).imp ?_
    rintro _ ⟨rfl, hmax, hafter⟩
    refine ⟨months, rfl, ?_, hmax⟩
    rw [hdrop, hafter, ← hmonths]
    exact .first hfield .done

lemma parseYearMonth_complete {start last : IntervalField} (hstart : start = .year ∨ start = .month)
    (hlast : start = last ∨ last = .month) {text : List Char} {total : ℕ}
    (h : Writes (yearMonthFields start last) text total) (hmax : total ≤ 2147483647)
    (hpos : pos ≤ value.length) (hdrop : value.drop pos = text) :
    parseYearMonth value pos start last = .ok (total : ℤ) := by
  rw [yearMonthFields] at h
  cases h with
  | empty =>
    have hlen := length_le_of_drop_nil hdrop
    rw [parseYearMonth, if_pos (by omega)]
    rfl
  | @first _ _ text rest amount total hfield hrest =>
    have hne : start ≠ .second := by rcases hstart with rfl | rfl <;> decide
    have hend : pos ≠ value.length := by
      rintro rfl
      rw [List.drop_length] at hdrop
      exact hfield.ne_nil (List.append_eq_nil_iff.mp hdrop.symm).1
    have hfollow := drop_of_drop_append hdrop
    rw [parseYearMonth, if_neg hend, readField_complete hfield hrest.stops hdrop, ok_bind]
    dsimp only
    rw [toMonths_eq hstart (hfield.le_of_ne_second hne)]
    rcases WritesRest.eq_or hrest with ⟨rfl, rfl⟩ | ⟨hmore, text', amount', hfield', rfl, rfl⟩
    · have hlen := length_le_of_drop_nil hfollow
      rw [if_neg (by omega), finish_complete (by omega) hfollow]
      rfl
    · obtain rfl : last = .month := hlast.resolve_left hmore
      have hend : value.drop (pos + text.length + 1 + text'.length) = [] :=
        drop_of_drop_append ((drop_of_drop_cons hfollow).trans (List.append_nil _).symm)
      have hread := readField_complete hfield' (show Stops [] by rintro c ⟨⟩)
        ((drop_of_drop_cons hfollow).trans (List.append_nil _).symm)
      have hle := hfield'.le_of_ne_second (by decide)
      rw [if_pos ⟨hmore, lt_length_of_drop hfollow⟩, readSeparator_complete _ _ hfollow, ok_bind,
        hread, ok_bind]
      rw [show unit .month = 1 from rfl, Nat.mul_one] at hmax ⊢
      dsimp only
      rw [int64_eq (by omega) (by omega), ok_bind, ← Nat.cast_add, finish_complete hmax hend]

end Readers

/-! ### Qualifiers -/

instance (start last : IntervalField) : Decidable (ValidQualifier start last) :=
  inferInstanceAs (Decidable (_ ∧ _))

/-- The two checks of `parse` are the documented condition. -/
lemma validQualifier_iff (start last : IntervalField) :
    ValidQualifier start last ↔
      (start == .year || start == .month) = (last == .year || last == .month) ∧
        start.rank ≤ last.rank := by
  cases start <;> cases last <;> decide

/-- The months of a year-month qualifier. -/
lemma group_eq_iff (start : IntervalField) :
    group start = [.year, .month] ↔ (start == .year || start == .month) = true := by
  cases start <;> decide

/-- A valid qualifier is of one of the two groups. -/
lemma qualifierFields_cases {start last : IntervalField} (h : ValidQualifier start last) :
    ((start == .year || start == .month) = true ∧ (start = .year ∨ start = .month) ∧
      (start = last ∨ last = .month) ∧ qualifierFields start last = yearMonthFields start last) ∨
    ((start == .year || start == .month) = false ∧ ∃ first final, dayTimeField start = some first ∧
      dayTimeField last = some final ∧ first ≤ final ∧ final ≤ 3 ∧
      qualifierFields start last = fieldsFrom first final) := by
  revert h
  cases start <;> cases last <;> intro h <;> first
    | exact absurd h (by decide)
    | exact .inl ⟨by decide, by decide, by decide, by decide⟩
    | exact .inr ⟨by decide, _, _, rfl, rfl, by decide, by decide, by decide⟩

lemma parseGroup_safely (value : List Char) (pos : ℕ) {start last : IntervalField}
    (h : ValidQualifier start last) :
    Safely (parseGroup value pos start last (start == .year || start == .month)) fun parsed =>
      ∃ total : ℕ, parsed = total ∧ Writes (qualifierFields start last) (value.drop pos) total ∧
        (group start = [.year, .month] → total ≤ 2147483647) := by
  rcases qualifierFields_cases h with ⟨hgroup, hstart, hlast, hfields⟩ |
    ⟨hgroup, first, final, hfirst, hfinal, hle, hthree, hfields⟩
  · rw [hfields, hgroup, parseGroup, if_pos rfl]
    refine (parseYearMonth_safely value pos hstart hlast).imp ?_
    rintro _ ⟨total, rfl, hwrites, hmax⟩
    exact ⟨total, rfl, hwrites, fun _ => hmax⟩
  · rw [hfields, hgroup, parseGroup, if_neg (by decide), hfirst, hfinal]
    refine (parseDayTime_safely value pos hle hthree).imp ?_
    rintro _ ⟨total, rfl, hwrites⟩
    refine ⟨total, rfl, hwrites, fun hmonths => ?_⟩
    rw [group_eq_iff, hgroup] at hmonths
    cases hmonths

lemma parseGroup_complete {value : List Char} {pos : ℕ} {start last : IntervalField}
    (h : ValidQualifier start last) {total : ℕ} (hpos : pos ≤ value.length)
    (hwrites : Writes (qualifierFields start last) (value.drop pos) total)
    (hmax : group start = [.year, .month] → total ≤ 2147483647) :
    parseGroup value pos start last (start == .year || start == .month) = .ok (total : ℤ) := by
  rcases qualifierFields_cases h with ⟨hgroup, hstart, hlast, hfields⟩ |
    ⟨hgroup, first, final, hfirst, hfinal, hle, hthree, hfields⟩
  · rw [hgroup, parseGroup, if_pos rfl]
    exact parseYearMonth_complete hstart hlast (hfields ▸ hwrites)
      (hmax ((group_eq_iff start).mpr hgroup)) hpos rfl
  · rw [hgroup, parseGroup, if_neg (by decide), hfirst, hfinal]
    exact parseDayTime_complete hle hthree (hfields ▸ hwrites) rfl

/-! ### Signs -/

lemma WritesField.head_ne {field : IntervalField} {text rest : List Char} {amount : ℕ}
    (h : WritesField field text amount) : (text ++ rest).head? ≠ some '-' := by
  have hplus : ∀ {signed : Bool} {after : List Char}, after.head? ≠ some '-' →
      (plusSign signed ++ after).head? ≠ some '-' := by
    intro signed after hafter
    cases signed
    · exact hafter
    · simp [plusSign]
  have hdigit : ∀ {digits after : List Char}, Digits digits → digits ≠ [] →
      (digits ++ after).head? ≠ some '-' := by
    intro digits after hdigits hsome
    rcases digits with _ | ⟨d, digits⟩
    · exact absurd rfl hsome
    · intro hd
      have hminus := hdigits.cons.1
      rw [Option.some.inj hd] at hminus
      exact absurd hminus (by decide)
  cases h with
  | integer signed hfield hdigits hsome =>
    rw [List.append_assoc]
    exact hplus (hdigit hdigits hsome)
  | seconds signed hdigits hsome =>
    rw [List.append_assoc]
    exact hplus (hdigit hdigits hsome)
  | @fraction signed digits fraction hdigits =>
    rw [List.append_assoc, List.append_assoc]
    refine hplus ?_
    by_cases hnil : digits = []
    · simp [hnil]
    · exact hdigit hdigits hnil

lemma Writes.head_ne {fields : List IntervalField} {text : List Char} {total : ℕ}
    (h : Writes fields text total) : text.head? ≠ some '-' := by
  cases h with
  | empty => decide
  | first hfield hrest => exact hfield.head_ne

/-- The minus sign inside the value, as `parse` finds it. -/
lemma inGrammar_iff {start last : IntervalField} {value : List Char} {negative : Bool}
    {total : ℕ} : InGrammar start last value negative total ↔
      negative = (value.head? == some '-') ∧
        Writes (qualifierFields start last) (value.drop (if negative then 1 else 0)) total ∧
        (group start = [.year, .month] → total ≤ 2147483647) := by
  constructor
  · rintro ⟨body, rfl, hwrites, hmax⟩
    cases negative
    · exact ⟨by simpa using hwrites.head_ne, hwrites, hmax⟩
    · exact ⟨rfl, hwrites, hmax⟩
  · rintro ⟨hnegative, hwrites, hmax⟩
    refine ⟨_, ?_, hwrites, hmax⟩
    cases negative
    · rfl
    · obtain ⟨body, hbody⟩ := List.head?_eq_some_iff.mp (beq_iff_eq.mp hnegative.symm)
      rw [hbody]
      rfl

/-! ### The parser -/

/-- The number of a sign. -/
def Sign.factor : Sign → ℤ
  | .positive => 1
  | .negative => -1

/-- The number of the sign inside the value. -/
def innerFactor (negative : Bool) : ℤ := if negative then -1 else 1

/-- The typed constant of a qualifier. -/
def constantOf (start : IntervalField) (amount : ℤ) : IntervalConstant :=
  if group start = [.year, .month] then .yearMonth amount else .dayTime amount

/-- A literal whose qualifier is not valid is rejected. -/
lemma parse_invalid {literal : IntervalLiteral}
    (h : ¬ ValidQualifier literal.startField (literal.endField.getD literal.startField)) :
    ∃ error, parse literal = raise error := by
  rw [validQualifier_iff, not_and_or] at h
  by_cases hgroup : (literal.startField == .year || literal.startField == .month) =
      (literal.endField.getD literal.startField == .year ||
        literal.endField.getD literal.startField == .month)
  · exact ⟨_, (if_neg (not_not.mpr hgroup)).trans (if_pos (h.resolve_left (not_not.mpr hgroup)))⟩
  · exact ⟨_, if_pos hgroup⟩

/-- A literal whose qualifier is valid is parsed by its value. -/
lemma parse_valid {literal : IntervalLiteral}
    (h : ValidQualifier literal.startField (literal.endField.getD literal.startField)) :
    ∃ qualifier,
      parse literal = parseValue literal (literal.endField.getD literal.startField) qualifier := by
  obtain ⟨hgroup, hrank⟩ := (validQualifier_iff _ _).mp h
  exact ⟨_, (if_neg (not_not.mpr hgroup)).trans (if_neg (not_not.mpr hrank))⟩

lemma sign_eq (sign : Sign) (minus : Bool) :
    (if minus = true then -(if sign = .positive then 1 else -1)
      else if sign = .positive then 1 else -1) = sign.factor * innerFactor minus := by
  cases minus <;> cases sign <;> rfl

/-- Bounds of the signed value, in the type of its group. -/
lemma signed_eq (sign : Sign) (minus : Bool) {start last : IntervalField} {text : List Char}
    {total : ℕ} (hwrites : Writes (qualifierFields start last) text total)
    (hmax : group start = [.year, .month] → total ≤ 2147483647) :
    (do
      let signed ← int64 (sign.factor * innerFactor minus * (total : ℤ))
      .ok (if start == .year || start == .month then .yearMonth (toInt32 signed)
        else .dayTime signed) : Except (Stop PrestoSqlError) IntervalConstant) =
      .ok (constantOf start (sign.factor * innerFactor minus * total)) := by
  have hlength : (qualifierFields start last).length ≤ 4 :=
    (List.length_filter_le _ _).trans (by cases start <;> decide)
  have hle := hwrites.le.trans (Nat.mul_le_mul_right _ hlength)
  have hfactor : sign.factor * innerFactor minus = 1 ∨ sign.factor * innerFactor minus = -1 := by
    cases sign <;> cases minus <;> decide
  rw [int64_eq (by rcases hfactor with h | h <;> rw [h] <;> omega)
    (by rcases hfactor with h | h <;> rw [h] <;> omega), ok_bind, constantOf]
  by_cases hgroup : group start = [.year, .month]
  · have hsmall := hmax hgroup
    have hcast : toInt32 (sign.factor * innerFactor minus * total) =
        sign.factor * innerFactor minus * total := by
      rw [toInt32]
      exact Int.bmod_eq_of_le (by rcases hfactor with h | h <;> rw [h] <;> omega)
        (by rcases hfactor with h | h <;> rw [h] <;> omega)
    rw [if_pos hgroup, if_pos ((group_eq_iff start).mp hgroup), hcast]
  · rw [if_neg hgroup, if_neg (mt (group_eq_iff start).mpr hgroup)]

/-- The value that is returned is the one that is written, and nothing faults. -/
lemma parseValue_safely (literal : IntervalLiteral) {last : IntervalField} (qualifier : String)
    (h : ValidQualifier literal.startField last) :
    Safely (parseValue literal last qualifier) fun constant => ∃ negative total,
      InGrammar literal.startField last literal.value negative total ∧
        constant = constantOf literal.startField
          (literal.sign.factor * innerFactor negative * total) := by
  have hsafely := parseGroup_safely literal.value
    (if literal.value.head? == some '-' then 1 else 0) h
  simp only [parseValue, sign_eq, IntervalLiteral.isYearToMonth]
  rcases hresult : parseGroup literal.value (if literal.value.head? == some '-' then 1 else 0)
    literal.startField last (literal.startField == .year || literal.startField == .month) with
    (_ | _ | _) | parsed
  · exact absurd hresult hsafely.ne_pastEnd
  · exact absurd hresult hsafely.ne_overflow
  · exact Safely.raise _
  · obtain ⟨total, rfl, hwrites, hmax⟩ := hsafely.post hresult
    exact Safely.of_eq (signed_eq literal.sign _ hwrites hmax)
      ⟨_, total, inGrammar_iff.mpr ⟨rfl, hwrites, hmax⟩, rfl⟩

lemma parseValue_complete (literal : IntervalLiteral) {last : IntervalField} (qualifier : String)
    (h : ValidQualifier literal.startField last) {negative : Bool} {total : ℕ}
    (hgrammar : InGrammar literal.startField last literal.value negative total) :
    parseValue literal last qualifier = .ok (constantOf literal.startField
      (literal.sign.factor * innerFactor negative * total)) := by
  obtain ⟨rfl, hwrites, hmax⟩ := inGrammar_iff.mp hgrammar
  have hpos : (if literal.value.head? == some '-' then 1 else 0) ≤ literal.value.length := by
    rcases literal.value with _ | ⟨c, rest⟩
    · simp
    · split_ifs <;> simp
  simp only [parseValue, sign_eq, IntervalLiteral.isYearToMonth,
    parseGroup_complete h hpos hwrites hmax]
  exact signed_eq literal.sign _ hwrites hmax

/-- Interval literals are parsed exactly. The literals that are accepted are those of the documented
grammar with a valid qualifier; the constant is the outer sign times the inner sign times the sum of
the fields; on no literal is a character past the end read, and no integer leaves its 64 bits. -/
theorem parse_exact (literal : IntervalLiteral) :
    (∀ constant, parse literal = .ok constant ↔
      ValidQualifier literal.startField (literal.endField.getD literal.startField) ∧
        ∃ negative total,
          InGrammar literal.startField (literal.endField.getD literal.startField) literal.value
            negative total ∧
          constant = constantOf literal.startField
            (literal.sign.factor * innerFactor negative * total)) ∧
      parse literal ≠ .error .pastEnd ∧ parse literal ≠ .error .overflow := by
  by_cases h : ValidQualifier literal.startField (literal.endField.getD literal.startField)
  · obtain ⟨qualifier, hparse⟩ := parse_valid h
    have hsafely := parseValue_safely literal qualifier h
    rw [hparse]
    refine ⟨fun constant => ⟨fun hok => ⟨h, hsafely.post hok⟩, ?_⟩, hsafely.ne_pastEnd,
      hsafely.ne_overflow⟩
    rintro ⟨-, negative, total, hgrammar, rfl⟩
    exact parseValue_complete literal qualifier h hgrammar
  · obtain ⟨error, herror⟩ := parse_invalid h
    have hsafely : Safely (parse literal) fun _ => False := herror ▸ Safely.raise error
    exact ⟨fun constant => ⟨fun hok => (hsafely.post hok).elim, fun hvalid => absurd hvalid.1 h⟩,
      hsafely.ne_pastEnd, hsafely.ne_overflow⟩

end Verax.Literals
