import Verax.Literals.DecimalParser
import Mathlib.Data.List.TakeWhile
import Mathlib.Data.Rat.Defs
import Mathlib.Tactic.Ring
import Mathlib.Tactic.NormNum
import Mathlib.Tactic.FieldSimp
import Mathlib.Tactic.SplitIfs

/-!
# The decimal literals that keep their value

* `Decimal`: the texts of decimals with their parts; `written`: the number of such a text.
* `Exact`: what is asked of the parser on one text.
* `scan_eq`: the positions that the loop finds.
* `parseDecimal_exact_iff`: the texts on which the parser is exact, as long as the positions it
  keeps fit in 32 bits.
-/

namespace Verax.Literals

open Lib.Reading

/-! ### Decimals -/

/-- The optional sign of a decimal; whether it is a minus sign. -/
inductive SignText : Bool → List Char → Prop
  | none : SignText false []
  | plus : SignText false ['+']
  | minus : SignText true ['-']

/-- The text is a decimal with this sign, these digits before its period and this fraction: a sign
that may be missing, digits with at most one period among them, and at least one digit. -/
inductive Decimal : List Char → Bool → List Char → List Char → Prop
  | whole {sign digits : List Char} {negative : Bool} (hsign : SignText negative sign)
      (hdigits : Digits digits) (hsome : digits ≠ []) : Decimal (sign ++ digits) negative digits []
  | point {sign digits fraction : List Char} {negative : Bool} (hsign : SignText negative sign)
      (hdigits : Digits digits) (hfraction : Digits fraction)
      (hsome : digits ≠ [] ∨ fraction ≠ []) :
      Decimal (sign ++ (digits ++ '.' :: fraction)) negative digits fraction

/-- The number that the parts of a decimal write. -/
def written (negative : Bool) (digits fraction : List Char) : ℚ :=
  (if negative then -1 else 1) *
    ((numeral digits : ℚ) + (numeral fraction : ℚ) / 10 ^ fraction.length)

/-- No precision up to 38 has room for the number with all of its fraction. -/
def TooPrecise (digits fraction : List Char) : Prop :=
  38 < fraction.length ∨ 10 ^ 38 ≤ numeral (digits ++ fraction)

/-- The constant is the number, with the fraction's digits as its scale and in 64 bits only if it
fits. -/
structure Represents (constant : DecimalConstant) (negative : Bool)
    (digits fraction : List Char) : Prop where
  value : (constant.unscaled : ℚ) / 10 ^ constant.scale = written negative digits fraction
  scale : constant.scale = fraction.length
  scale_le : constant.scale ≤ constant.precision
  precision_pos : 1 ≤ constant.precision
  precision_le : constant.precision ≤ 38
  unscaled_lt : |constant.unscaled| < 10 ^ constant.precision
  fits : constant.long = false →
    -9223372036854775808 ≤ constant.unscaled ∧ constant.unscaled ≤ 9223372036854775807

/-- What is asked of the parser on a text: a decimal is represented exactly unless it is too
precise, and every other text is rejected. -/
def Exact (toInt128 : List Char → Except (Stop PrestoSqlError) ℤ) (location : NodeLocation)
    (text : List Char) : Prop :=
  (∀ negative digits fraction, Decimal text negative digits fraction →
    (TooPrecise digits fraction → ∃ error, parseDecimal toInt128 text location = raise error) ∧
    (¬ TooPrecise digits fraction → ∃ constant,
      parseDecimal toInt128 text location = .ok constant ∧
        Represents constant negative digits fraction)) ∧
  ((∀ negative digits fraction, ¬ Decimal text negative digits fraction) →
    ∃ error, parseDecimal toInt128 text location = raise error)

/-- The conversion reads a sign and digits whose number is in its range. -/
def Converts (toInt128 : List Char → Except (Stop PrestoSqlError) ℤ) : Prop :=
  ∀ {negative : Bool} {sign digits : List Char}, SignText negative sign → Digits digits →
    digits ≠ [] → numeral digits < 2 ^ 127 →
    toInt128 (sign ++ digits) = .ok (if negative then -(numeral digits : ℤ) else numeral digits)

/-! ### The positions that are kept -/

/-- The position of the first character of a kind, as the loop keeps it. -/
def posOf : Option ℕ → ℤ
  | none => -1
  | some i => i

/-- What the loop has found in the text so far. -/
def positions (seen : List Char) : Positions :=
  ⟨posOf (seen.findIdx? (· == '.')), posOf (seen.findIdx? isNonZero)⟩

/-- The positions that the loop keeps fit in 32 bits. -/
def Kept (text : List Char) : Prop :=
  (∀ i ∈ text.findIdx? (· == '.'), i < 2 ^ 31) ∧ (∀ i ∈ text.findIdx? isNonZero, i < 2 ^ 31)

lemma posOf_eq_neg_one {found : Option ℕ} : posOf found = -1 ↔ found = none := by
  rcases found with _ | i
  · simp [posOf]
  · simp [posOf]

lemma positions_firstNonZeroPos (seen : List Char) :
    (positions seen).firstNonZeroPos = posOf (seen.findIdx? isNonZero) := rfl

lemma toInt32_of_lt {i : ℕ} (h : i < 2 ^ 31) : toInt32 i = i :=
  Int.bmod_eq_of_le (by omega) (by omega)

section Scan

variable (location : NodeLocation) {text rest : List Char} {i : ℕ} {c : Char}

/-- A character at a position extends what has been seen. -/
lemma take_of_drop (h : text.drop i = c :: rest) : text.take (i + 1) = text.take i ++ [c] := by
  rw [List.take_add_one, ← List.head?_drop, h]
  rfl

lemma length_take_of_drop (h : text.drop i = c :: rest) : (text.take i).length = i :=
  List.length_take_of_le (lt_length_of_drop h).le

/-- The first character of a kind, when none was seen before. -/
lemma findIdx?_of_drop {p : Char → Bool} (h : text.drop i = c :: rest) (hc : p c = true)
    (hnone : (text.take i).findIdx? p = none) :
    (text.take (i + 1)).findIdx? p = some i ∧ text.findIdx? p = some i := by
  have htake : (text.take (i + 1)).findIdx? p = some i := by
    rw [take_of_drop h, List.findIdx?_append, hnone, List.findIdx?_cons, if_pos hc]
    simp [length_take_of_drop h]
  refine ⟨htake, ?_⟩
  rw [← List.take_append_drop (i + 1) text, List.findIdx?_append, htake]
  rfl

/-- A character that is not of the kind, or comes after one that is, changes nothing. -/
lemma findIdx?_take {p : Char → Bool} (h : text.drop i = c :: rest)
    (hc : p c = false ∨ (text.take i).findIdx? p ≠ none) :
    (text.take (i + 1)).findIdx? p = (text.take i).findIdx? p := by
  rw [take_of_drop h, List.findIdx?_append]
  rcases hfound : (text.take i).findIdx? p with _ | first
  · have hfalse : p c = false := hc.resolve_right fun hsome => hsome hfound
    simp [List.findIdx?_cons, hfalse]
  · rfl

/-- A period is new exactly when none was seen. -/
lemma findIdx?_period_eq_none {seen : List Char} :
    seen.findIdx? (· == '.') = none ↔ seen.count '.' = 0 := by
  rw [List.findIdx?_eq_none_iff, List.count_eq_zero]
  constructor
  · intro h hmem
    simpa using h _ hmem
  · rintro h c hc
    rw [beq_eq_false_iff_ne]
    rintro rfl
    exact h hc

/-- What the loop still accepts: digits and a period, if it has seen none. -/
def Scannable (text rest : List Char) : Prop :=
  (∀ c ∈ rest, isDigit c = true ∨ c = '.') ∧ text.count '.' ≤ 1

/-- The loop finds the first period and the first digit other than zero. -/
lemma scan_eq (hkept : Kept text) : ∀ {rest : List Char} {i : ℕ}, text.drop i = rest →
    i ≤ text.length → (text.take i).count '.' ≤ 1 →
    (Scannable text rest → scan location text i (positions (text.take i)) = .ok (positions text)) ∧
    (¬ Scannable text rest →
      ∃ error, scan location text i (positions (text.take i)) = raise error) := by
  intro rest
  induction rest with
  | nil =>
    intro i hdrop hle hseen
    have hlen := length_le_of_drop_nil hdrop
    have htake : text.take i = text := List.take_of_length_le hlen
    rw [scan, if_neg (by omega), htake]
    exact ⟨fun _ => rfl, fun hnot => absurd ⟨by simp, htake ▸ hseen⟩ hnot⟩
  | cons c rest ih =>
    intro i hdrop hle hseen
    have hlt := lt_length_of_drop hdrop
    have hcount : text.count '.' = (text.take i).count '.' + (c :: rest).count '.' := by
      conv_lhs => rw [← List.take_append_drop i text, hdrop, List.count_append]
    have htake : (text.take (i + 1)).count '.' = (text.take i).count '.' + [c].count '.' := by
      rw [take_of_drop hdrop, List.count_append]
    have hcons :
        Scannable text (c :: rest) ↔ (isDigit c = true ∨ c = '.') ∧ Scannable text rest := by
      simp only [Scannable, List.forall_mem_cons, and_assoc]
    have hnext := ih (drop_of_drop_cons hdrop) (show i + 1 ≤ text.length by omega)
    rw [scan, if_pos hlt, readAt_of_drop hdrop, ok_bind]
    by_cases hperiod : c = '.'
    · rw [if_pos hperiod]
      by_cases hnone : (text.take i).findIdx? (· == '.') = none
      · have hzero := findIdx?_period_eq_none.mp hnone
        obtain ⟨hfound, htext⟩ := findIdx?_of_drop hdrop (by simpa using hperiod) hnone
        have hsame : (text.take (i + 1)).findIdx? isNonZero = (text.take i).findIdx? isNonZero :=
          findIdx?_take hdrop (.inl (by rw [hperiod]; decide))
        have hpositions : positions (text.take (i + 1)) =
            { positions (text.take i) with periodPos := toInt32 i } := by
          rw [positions, hfound, hsame, toInt32_of_lt (hkept.1 i htext)]
          rfl
        have hold : ¬ (positions (text.take i)).periodPos ≠ -1 :=
          not_not.mpr (posOf_eq_neg_one.mpr hnone)
        rw [if_neg hold, ← hpositions, hcons]
        have hone : [c].count '.' = 1 := by rw [hperiod]; decide
        obtain ⟨hok, herror⟩ := hnext (by omega)
        exact ⟨fun h => hok h.2, fun h => herror fun hrest => h ⟨.inr hperiod, hrest⟩⟩
      · have hpos : 0 < (text.take i).count '.' :=
          Nat.pos_of_ne_zero fun hzero => hnone (findIdx?_period_eq_none.mpr hzero)
        have hhere : 0 < (c :: rest).count '.' := List.count_pos_iff.mpr (by simp [hperiod])
        have hold : (positions (text.take i)).periodPos ≠ -1 := mt posOf_eq_neg_one.mp hnone
        rw [if_pos hold]
        exact ⟨fun h => absurd h.2 (by omega), fun _ => ⟨_, rfl⟩⟩
    rw [if_neg hperiod]
    by_cases hdigit : isDigit c = true
    swap
    · rw [if_pos hdigit, hcons]
      exact ⟨fun h => absurd h.1 (by tauto), fun _ => ⟨_, rfl⟩⟩
    rw [if_neg (not_not.mpr hdigit), hcons]
    have hzero : [c].count '.' = 0 := List.count_eq_zero.mpr (by simpa using Ne.symm hperiod)
    have hsame : (text.take (i + 1)).findIdx? (· == '.') = (text.take i).findIdx? (· == '.') :=
      findIdx?_take hdrop (.inl (by simpa using hperiod))
    have hrec : (Scannable text rest → scan location text (i + 1) (positions (text.take (i + 1))) =
        .ok (positions text)) ∧ (¬ Scannable text rest →
          ∃ error, scan location text (i + 1) (positions (text.take (i + 1))) = raise error) :=
      hnext (by omega)
    have hboth : (isDigit c = true ∨ c = '.') ∧ Scannable text rest ↔ Scannable text rest := by
      tauto
    rw [hboth]
    by_cases hfirst : (positions (text.take i)).firstNonZeroPos = -1 ∧ c ≠ '0'
    · obtain ⟨hnone, hne⟩ := hfirst
      obtain ⟨hfound, htext⟩ := findIdx?_of_drop hdrop (by simp [isNonZero, hdigit, hne])
        (posOf_eq_neg_one.mp hnone)
      have hpositions : positions (text.take (i + 1)) =
          { positions (text.take i) with firstNonZeroPos := toInt32 i } := by
        rw [positions, hfound, hsame, toInt32_of_lt (hkept.2 i htext)]
        rfl
      rw [if_pos ⟨hnone, hne⟩, ← hpositions]
      exact hrec
    · have hsame' : (text.take (i + 1)).findIdx? isNonZero = (text.take i).findIdx? isNonZero := by
        refine findIdx?_take hdrop ?_
        rcases not_and_or.mp hfirst with hsome | hc
        · exact .inr (mt posOf_eq_neg_one.mpr hsome)
        · exact .inl (by simp [isNonZero, not_not.mp hc])
      have hpositions : positions (text.take (i + 1)) = positions (text.take i) := by
        rw [positions, hsame, hsame']
        rfl
      rw [if_neg hfirst, ← hpositions]
      exact hrec

end Scan

/-! ### The shape of a text -/

/-- The sign that a text starts with; a text without one does not start with a sign character. -/
lemma exists_sign (text : List Char) : ∃ negative sign body, text = sign ++ body ∧
    SignText negative sign ∧ (sign = [] → ∀ c ∈ body.head?, c ≠ '+' ∧ c ≠ '-') := by
  rcases text with _ | ⟨c, body⟩
  · exact ⟨false, [], [], rfl, .none, by simp⟩
  by_cases hplus : c = '+'
  · exact ⟨false, ['+'], body, by simp [hplus], .plus, by simp⟩
  by_cases hminus : c = '-'
  · exact ⟨true, ['-'], body, by simp [hminus], .minus, by simp⟩
  · exact ⟨false, [], c :: body, rfl, .none, by simp [hplus, hminus]⟩

/-- The loop starts after the sign. -/
lemma parseDecimal_eq (toInt128 : List Char → Except (Stop PrestoSqlError) ℤ)
    (location : NodeLocation) {negative : Bool} {sign body : List Char}
    (hsign : SignText negative sign) (hbody : sign = [] → ∀ c ∈ body.head?, c ≠ '+' ∧ c ≠ '-')
    (hne : sign ++ body ≠ []) :
    parseDecimal toInt128 (sign ++ body) location =
      scan location (sign ++ body) sign.length (positions ((sign ++ body).take sign.length)) >>=
        convert toInt128 (sign ++ body) location := by
  rw [parseDecimal, if_neg hne, List.take_left]
  cases hsign with
  | none =>
    rcases body with _ | ⟨c, body⟩
    · exact absurd rfl hne
    · have hc := hbody rfl c rfl
      have hno : ¬ (c = '+' ∨ c = '-') := by tauto
      simp only [List.nil_append, readAt, List.getElem?_cons_zero, ok_bind, if_neg hno]
      rfl
  | plus => rfl
  | minus => rfl

/-- Digits and at most one period: the digits around it. -/
lemma split_period {body : List Char} (hchars : ∀ c ∈ body, isDigit c = true ∨ c = '.')
    (hcount : body.count '.' ≤ 1) :
    Digits body ∨ ∃ digits fraction, body = digits ++ '.' :: fraction ∧ Digits digits ∧
      Digits fraction := by
  by_cases hperiod : '.' ∈ body
  · obtain ⟨digits, fraction, rfl⟩ := List.append_of_mem hperiod
    rw [List.count_append, List.count_cons_self] at hcount
    refine .inr ⟨digits, fraction, rfl, fun c hc => ?_, fun c hc => ?_⟩
    · refine (hchars c (by simp [hc])).resolve_right ?_
      rintro rfl
      have := List.count_pos_iff.mpr hc
      omega
    · refine (hchars c (by simp [hc])).resolve_right ?_
      rintro rfl
      have := List.count_pos_iff.mpr hc
      omega
  · refine .inl fun c hc => (hchars c hc).resolve_right ?_
    rintro rfl
    exact hperiod hc

lemma count_period_digits {digits : List Char} (h : Digits digits) : digits.count '.' = 0 := by
  refine List.count_eq_zero.mpr fun hmem => ?_
  exact absurd (h _ hmem) (by decide)

lemma findIdx?_period_digits {digits : List Char} (h : Digits digits) :
    digits.findIdx? (· == '.') = none := findIdx?_period_eq_none.mpr (count_period_digits h)

lemma findIdx?_sign {negative : Bool} {sign : List Char} (h : SignText negative sign) :
    sign.findIdx? (· == '.') = none ∧ sign.findIdx? isNonZero = none ∧ sign.count '.' = 0 := by
  cases h <;> decide

/-! ### The precision -/

/-- The number of digits from the first one other than zero. -/
def width (digits : List Char) : ℕ :=
  match digits.findIdx? isNonZero with
  | none => 0
  | some first => digits.length - first

/-- The precision that the parser finds. -/
def precisionOf (digits fraction : List Char) : ℕ :=
  max 1 (max fraction.length (width (digits ++ fraction)))

lemma numeral_lt_width {digits : List Char} (h : Digits digits) :
    numeral digits < 10 ^ width digits := by
  rw [width]
  rcases hfirst : digits.findIdx? isNonZero with _ | first
  · rw [numeral_eq_zero h hfirst]
    simp
  · exact (numeral_bounds h hfirst).2.2

lemma le_numeral_of_lt_width {digits : List Char} (h : Digits digits) {n : ℕ}
    (hn : n < width digits) : 10 ^ n ≤ numeral digits := by
  rw [width] at hn
  rcases hfirst : digits.findIdx? isNonZero with _ | first
  · simp [hfirst] at hn
  · rw [hfirst] at hn
    exact (Nat.pow_le_pow_right (by omega) (by simp only at hn; omega)).trans
      (numeral_bounds h hfirst).2.1

lemma tooPrecise_iff {digits fraction : List Char} (h : Digits (digits ++ fraction)) :
    TooPrecise digits fraction ↔ 38 < precisionOf digits fraction := by
  rw [TooPrecise, precisionOf, lt_max_iff, lt_max_iff]
  constructor
  · rintro (hlong | hbig)
    · exact .inr (.inl hlong)
    · refine .inr (.inr ?_)
      by_contra hle
      have := (numeral_lt_width h).trans_le (Nat.pow_le_pow_right (show 0 < 10 by omega)
        (Nat.not_lt.mp hle))
      omega
  · rintro (hone | hlong | hbig)
    · omega
    · exact .inl hlong
    · exact .inr (le_numeral_of_lt_width h hbig)

lemma toSizeT_natCast (n : ℕ) : toSizeT n = n := by
  rw [toSizeT, if_pos (by omega), Int.toNat_natCast]

/-- What `measure` finds in a decimal without a period. -/
lemma measure_whole {negative : Bool} {sign digits : List Char} (hsign : SignText negative sign)
    (hdigits : Digits digits) :
    measure (sign ++ digits) (positions (sign ++ digits)) =
      .ok (precisionOf digits [], 0, sign ++ digits) := by
  obtain ⟨hsignP, hsignN, -⟩ := findIdx?_sign hsign
  have hperiod : (positions (sign ++ digits)).periodPos = -1 := by
    rw [positions, posOf_eq_neg_one, List.findIdx?_append, hsignP, findIdx?_period_digits hdigits]
    rfl
  rw [measure, if_pos hperiod, precisionOf, width, List.append_nil]
  rcases hfirst : digits.findIdx? isNonZero with _ | first
  · have hnone : (positions (sign ++ digits)).firstNonZeroPos = -1 := by
      rw [positions, posOf_eq_neg_one, List.findIdx?_append, hsignN, hfirst]
      rfl
    rw [if_pos hnone]
    rfl
  · have hlt := (numeral_bounds hdigits hfirst).1
    have hsome :
        (positions (sign ++ digits)).firstNonZeroPos = ((first + sign.length : ℕ) : ℤ) := by
      rw [positions_firstNonZeroPos, List.findIdx?_append, hsignN, hfirst]
      rfl
    have hprecision : toSizeT (((sign ++ digits).length : ℤ) - ((first + sign.length : ℕ) : ℤ)) =
        digits.length - first := by
      rw [List.length_append, show ((sign.length + digits.length : ℕ) : ℤ) -
        ((first + sign.length : ℕ) : ℤ) = ((digits.length - first : ℕ) : ℤ) by omega,
        toSizeT_natCast]
    rw [hsome, if_neg (by omega), hprecision]
    simp only [List.length_nil]
    congr 2
    omega

/-- What `measure` finds in a decimal with a period. -/
lemma measure_point {negative : Bool} {sign digits fraction : List Char}
    (hsign : SignText negative sign) (hdigits : Digits digits) (hfraction : Digits fraction) :
    measure (sign ++ (digits ++ '.' :: fraction))
        (positions (sign ++ (digits ++ '.' :: fraction))) =
      .ok (precisionOf digits fraction, fraction.length, sign ++ (digits ++ fraction)) := by
  obtain ⟨hsignP, hsignN, -⟩ := findIdx?_sign hsign
  set text := sign ++ (digits ++ '.' :: fraction) with htext
  have hlength : text.length = sign.length + digits.length + 1 + fraction.length := by
    rw [htext]
    simp only [List.length_append, List.length_cons]
    omega
  have hperiod : (positions text).periodPos = ((sign.length + digits.length : ℕ) : ℤ) := by
    rw [positions, htext, List.findIdx?_append, hsignP, List.findIdx?_append,
      findIdx?_period_digits hdigits, List.findIdx?_cons]
    simp [posOf, Nat.add_comm]
  have hscale : toSizeT ((text.length : ℤ) - ((sign.length + digits.length : ℕ) : ℤ) - 1) =
      fraction.length := by
    rw [show (text.length : ℤ) - ((sign.length + digits.length : ℕ) : ℤ) - 1 =
      ((fraction.length : ℕ) : ℤ) by omega, toSizeT_natCast]
  have hafter : substrFrom text (toSizeT (((sign.length + digits.length : ℕ) : ℤ) + 1)) =
      .ok fraction := by
    have hdrop : text.drop (sign.length + digits.length + 1) = fraction := by
      rw [← List.drop_drop, htext, ← List.append_assoc, ← List.length_append, List.drop_left]
      rfl
    rw [← Nat.cast_succ, toSizeT_natCast, substrFrom, if_pos (by omega), Nat.succ_eq_add_one, hdrop]
  have hbefore : text.take (toSizeT ((sign.length + digits.length : ℕ) : ℤ)) = sign ++ digits := by
    rw [toSizeT_natCast, htext, ← List.append_assoc, ← List.length_append, List.take_left]
  have hmeasure : measure text (positions text) =
      .ok (if (positions text).firstNonZeroPos = -1 ∨
          (positions text).firstNonZeroPos > ((sign.length + digits.length : ℕ) : ℤ) then
            if fraction.length > 0 then fraction.length else 1
          else toSizeT ((text.length : ℤ) - (positions text).firstNonZeroPos - 1),
        fraction.length, sign ++ (digits ++ fraction)) := by
    rw [measure, hperiod, if_neg (by omega), hscale, hafter, ok_bind, hbefore, List.append_assoc]
  have hfound : text.findIdx? isNonZero =
      ((digits.findIdx? isNonZero).map (· + sign.length)).or
        ((fraction.findIdx? isNonZero).map (· + (sign.length + digits.length + 1))) := by
    rw [htext, List.findIdx?_append, hsignN, List.findIdx?_append, List.findIdx?_cons,
      show isNonZero '.' = false by decide]
    rcases digits.findIdx? isNonZero with _ | first <;>
      rcases fraction.findIdx? isNonZero with _ | first' <;> simp
    omega
  have hwidth : (digits ++ fraction).findIdx? isNonZero =
      (digits.findIdx? isNonZero).or
        ((fraction.findIdx? isNonZero).map (· + digits.length)) := List.findIdx?_append
  rw [hmeasure, precisionOf, width, hwidth]
  rcases hd : digits.findIdx? isNonZero with _ | first
  · have hmax : (if fraction.length > 0 then fraction.length else 1) = max 1 fraction.length := by
      split_ifs <;> omega
    rcases hf : fraction.findIdx? isNonZero with _ | first
    · have hnone : (positions text).firstNonZeroPos = -1 := by
        rw [positions_firstNonZeroPos, hfound, hd, hf]
        rfl
      rw [if_pos (.inl hnone), hmax]
      simp
    · have hlt := (numeral_bounds hfraction hf).1
      have hlater : (positions text).firstNonZeroPos =
          ((first + (sign.length + digits.length + 1) : ℕ) : ℤ) := by
        rw [positions_firstNonZeroPos, hfound, hd, hf]
        rfl
      rw [if_pos (.inr (by omega)), hmax]
      simp only [Option.map_some, Option.none_or, List.length_append]
      congr 2
      omega
  · have hlt := (numeral_bounds hdigits hd).1
    have hearlier : (positions text).firstNonZeroPos = ((first + sign.length : ℕ) : ℤ) := by
      rw [positions_firstNonZeroPos, hfound, hd]
      rfl
    rw [if_neg (by omega), hearlier, show (text.length : ℤ) - ((first + sign.length : ℕ) : ℤ) - 1 =
      ((digits.length + fraction.length - first : ℕ) : ℤ) by omega, toSizeT_natCast]
    simp only [Option.some_or, List.length_append]
    congr 2
    omega

/-! ### The value -/

/-- The number of a sign and digits. -/
def signedNumeral (negative : Bool) (digits : List Char) : ℤ :=
  if negative then -(numeral digits : ℤ) else numeral digits

lemma abs_signedNumeral (negative : Bool) (digits : List Char) :
    |signedNumeral negative digits| = numeral digits := by
  cases negative <;> simp [signedNumeral]

lemma isSpace_of_isDigit {c : Char} (h : isDigit c = true) : isSpace c = false := by
  rw [isDigit, Bool.and_eq_true, decide_eq_true_eq, decide_eq_true_eq, Char.le_def,
    UInt32.le_iff_toNat_le] at h
  have h48 : ('0' : Char).val.toNat = 48 := rfl
  have h13 : ('\r' : Char).val.toNat = 13 := rfl
  have hne : c ≠ ' ' := by
    rintro rfl
    exact absurd h.1 (by decide)
  have hgt : ¬ c ≤ '\r' := by
    rw [Char.le_def, UInt32.le_iff_toNat_le]
    omega
  simp [isSpace, hne, hgt]

lemma readSigned_eq {negative : Bool} {sign digits : List Char} (hsign : SignText negative sign)
    (hdigits : Digits digits) : readSigned (sign ++ digits) = signedNumeral negative digits := by
  have htake : digits.takeWhile isDigit = digits := List.takeWhile_eq_self_iff.mpr hdigits
  cases hsign with
  | none =>
    rcases digits with _ | ⟨d, digits⟩
    · rfl
    · have hd := hdigits.cons.1
      have hspace := isSpace_of_isDigit hd
      have hsign : d ≠ '-' ∧ d ≠ '+' := by
        constructor <;> rintro rfl <;> exact absurd hd (by decide)
      simp [readSigned, hspace, hsign.1, hsign.2, htake, signedNumeral]
  | plus => simp [readSigned, isSpace, htake, signedNumeral]
  | minus => simp [readSigned, isSpace, htake, signedNumeral]

lemma signedNumeral_div (negative : Bool) (digits fraction : List Char) :
    (signedNumeral negative (digits ++ fraction) : ℚ) / 10 ^ fraction.length =
      written negative digits fraction := by
  have hne : (10 : ℚ) ^ fraction.length ≠ 0 := by positivity
  rw [signedNumeral, written, numeral_append]
  cases negative <;> simp <;> field_simp

/-! ### The parser -/

section Parser

variable {toInt128 : List Char → Except (Stop PrestoSqlError) ℤ} {location : NodeLocation}
  {text sign body digits fraction : List Char} {negative : Bool} {found : Positions}

/-- The constant that is built once the text is measured. -/
lemma convert_cases (hconvert : Converts toInt128) (hsign : SignText negative sign)
    (hdigits : Digits (digits ++ fraction)) (hsome : digits ++ fraction ≠ [])
    (hmeasure : measure text found =
      .ok (precisionOf digits fraction, fraction.length, sign ++ (digits ++ fraction))) :
    (TooPrecise digits fraction → ∃ error, convert toInt128 text location found = raise error) ∧
    (¬ TooPrecise digits fraction → ∃ constant,
      convert toInt128 text location found = .ok constant ∧
        Represents constant negative digits fraction) := by
  have hprecise := tooPrecise_iff hdigits
  have hlt : numeral (digits ++ fraction) < 10 ^ precisionOf digits fraction :=
    (numeral_lt_width hdigits).trans_le (Nat.pow_le_pow_right (by omega)
      ((le_max_right _ _).trans (le_max_right _ _)))
  have hone : 1 ≤ precisionOf digits fraction := le_max_left _ _
  have hscale : fraction.length ≤ precisionOf digits fraction :=
    (le_max_left _ _).trans (le_max_right _ _)
  have habs := abs_signedNumeral negative (digits ++ fraction)
  have hrepresents : ∀ long, precisionOf digits fraction ≤ 38 →
      (long = false → precisionOf digits fraction ≤ 18) →
      Represents ⟨signedNumeral negative (digits ++ fraction), precisionOf digits fraction,
        fraction.length, long⟩ negative digits fraction := by
    intro long hle hshort
    refine ⟨signedNumeral_div _ _ _, rfl, hscale, hone, hle, ?_, fun hlong => ?_⟩
    · rw [habs]
      exact_mod_cast hlt
    · have h18 : numeral (digits ++ fraction) < 10 ^ 18 :=
        hlt.trans_le (Nat.pow_le_pow_right (by omega) (hshort hlong))
      have hbounds := abs_le.mp habs.le
      exact ⟨by dsimp only; omega, by dsimp only; omega⟩
  have hshortMax : kShortMaxPrecision = 18 := rfl
  have hlongMax : kLongMaxPrecision = 38 := rfl
  rw [convert, hmeasure, ok_bind]
  dsimp only
  constructor
  · intro htoo
    have h38 := hprecise.mp htoo
    rw [if_neg (by omega), if_neg (by omega)]
    exact ⟨_, rfl⟩
  · intro hnot
    have h38 : precisionOf digits fraction ≤ 38 := Nat.not_lt.mp (mt hprecise.mpr hnot)
    by_cases h18 : precisionOf digits fraction ≤ 18
    · have hrep := hrepresents false h38 fun _ => h18
      obtain ⟨hlow, hhigh⟩ := hrep.fits rfl
      rw [if_pos (by omega), atol, readSigned_eq hsign hdigits, int64_eq hlow hhigh, ok_bind]
      exact ⟨_, rfl, hrep⟩
    · have h127 : numeral (digits ++ fraction) < 2 ^ 127 :=
        (hlt.trans_le (Nat.pow_le_pow_right (by omega) h38)).trans (by norm_num)
      rw [if_neg (by omega), if_pos (by omega), hconvert hsign hdigits hsome h127, ok_bind]
      exact ⟨_, rfl, hrepresents true h38 nofun⟩

/-- A text is converted with the positions of its first period and first digit other than zero, or
rejected by the loop. -/
lemma parseDecimal_cases (hkept : Kept (sign ++ body)) (hsign : SignText negative sign)
    (hbody : sign = [] → ∀ c ∈ body.head?, c ≠ '+' ∧ c ≠ '-') (hne : sign ++ body ≠ []) :
    (Scannable (sign ++ body) body → parseDecimal toInt128 (sign ++ body) location =
      convert toInt128 (sign ++ body) location (positions (sign ++ body))) ∧
    (¬ Scannable (sign ++ body) body →
      ∃ error, parseDecimal toInt128 (sign ++ body) location = raise error) := by
  obtain ⟨-, -, hcount⟩ := findIdx?_sign hsign
  have hdrop : (sign ++ body).drop sign.length = body := List.drop_left
  obtain ⟨hok, herror⟩ := scan_eq location hkept hdrop (by simp) (by rw [List.take_left]; omega)
  rw [parseDecimal_eq toInt128 location hsign hbody hne]
  refine ⟨fun h => by rw [hok h, ok_bind], fun h => ?_⟩
  obtain ⟨error, hraise⟩ := herror h
  exact ⟨error, by rw [hraise, raise_bind]⟩

/-- A decimal is scanned and measured. -/
lemma Decimal.measured (h : Decimal text negative digits fraction) :
    ∃ sign body, text = sign ++ body ∧ SignText negative sign ∧
      (∀ c ∈ body.head?, c ≠ '+' ∧ c ≠ '-') ∧ text ≠ [] ∧ Scannable text body ∧
      Digits (digits ++ fraction) ∧ digits ++ fraction ≠ [] ∧
      measure text (positions text) =
        .ok (precisionOf digits fraction, fraction.length, sign ++ (digits ++ fraction)) := by
  have hhead : ∀ {body : List Char}, (∀ c ∈ body, isDigit c = true ∨ c = '.') →
      ∀ c ∈ body.head?, c ≠ '+' ∧ c ≠ '-' := by
    intro body hchars c hc
    have hmem := hchars c (List.mem_of_mem_head? hc)
    constructor <;> rintro rfl <;> exact absurd hmem (by decide)
  cases h with
  | @whole sign _ _ hsign hdigits hsome =>
    obtain ⟨-, -, hcount⟩ := findIdx?_sign hsign
    have hchars : ∀ c ∈ digits, isDigit c = true ∨ c = '.' := fun c hc => .inl (hdigits c hc)
    refine ⟨sign, digits, rfl, hsign, hhead hchars, by simp [hsome], ⟨hchars, ?_⟩, ?_, ?_, ?_⟩
    · rw [List.count_append, hcount, count_period_digits hdigits]
      omega
    · rwa [List.append_nil]
    · rwa [List.append_nil]
    · rw [List.append_nil]
      exact measure_whole hsign hdigits
  | @point sign _ _ _ hsign hdigits hfraction hsome =>
    obtain ⟨-, -, hcount⟩ := findIdx?_sign hsign
    have hchars : ∀ c ∈ digits ++ '.' :: fraction, isDigit c = true ∨ c = '.' := by
      intro c hc
      rcases List.mem_append.mp hc with hc | hc
      · exact .inl (hdigits c hc)
      · rcases List.mem_cons.mp hc with rfl | hc
        · exact .inr rfl
        · exact .inl (hfraction c hc)
    refine ⟨sign, digits ++ '.' :: fraction, rfl, hsign, hhead hchars, by simp, ⟨hchars, ?_⟩,
      hdigits.append hfraction, ?_, measure_point hsign hdigits hfraction⟩
    · rw [List.count_append, hcount, List.count_append, count_period_digits hdigits,
        List.count_cons_self, count_period_digits hfraction]
    · rw [Ne, List.append_eq_nil_iff, not_and_or]
      exact hsome

/-- The texts without a digit that are accepted. -/
def bareTexts : List (List Char) := [['+'], ['-'], ['.'], ['+', '.'], ['-', '.']]

/-- A text that the loop accepts is a decimal, empty, or without a digit. -/
lemma decimal_of_scannable (hsign : SignText negative sign)
    (h : Scannable (sign ++ body) body) :
    (∃ digits fraction, Decimal (sign ++ body) negative digits fraction) ∨ sign ++ body = [] ∨
      sign ++ body ∈ bareTexts := by
  have hcount : body.count '.' ≤ 1 := by
    have := h.2
    rw [List.count_append] at this
    omega
  rcases split_period h.1 hcount with hdigits | ⟨digits, fraction, rfl, hdigits, hfraction⟩
  · by_cases hnil : body = []
    · rw [hnil]
      cases hsign
      · exact .inr (.inl rfl)
      · exact .inr (.inr (by decide))
      · exact .inr (.inr (by decide))
    · exact .inl ⟨body, [], .whole hsign hdigits hnil⟩
  · by_cases hnil : digits = [] ∧ fraction = []
    · rw [hnil.1, hnil.2]
      cases hsign <;> exact .inr (.inr (by decide))
    · exact .inl ⟨digits, fraction, .point hsign hdigits hfraction (not_and_or.mp hnil)⟩

/-- A text without a digit is no decimal. -/
lemma not_decimal_of_mem_bareTexts (h : text ∈ bareTexts) :
    ¬ Decimal text negative digits fraction := by
  have hnodigit : ∀ text ∈ bareTexts, ∀ c ∈ text, isDigit c = false := by
    simp [bareTexts, isDigit]
  intro hdecimal
  cases hdecimal with
  | whole hsign hdigits hsome =>
    obtain ⟨d, digits, rfl⟩ := List.exists_cons_of_ne_nil hsome
    have hfalse := hnodigit _ h d (by simp)
    rw [hdigits.cons.1] at hfalse
    cases hfalse
  | point hsign hdigits hfraction hsome =>
    rcases hsome with hsome | hsome
    · obtain ⟨d, digits, rfl⟩ := List.exists_cons_of_ne_nil hsome
      have hfalse := hnodigit _ h d (by simp)
      rw [hdigits.cons.1] at hfalse
      cases hfalse
    · obtain ⟨d, fraction, rfl⟩ := List.exists_cons_of_ne_nil hsome
      have hfalse := hnodigit _ h d (by simp)
      rw [hfraction.cons.1] at hfalse
      cases hfalse

/-- A text without a digit is accepted as zero. -/
lemma parseDecimal_bare (hkept : Kept text) (h : text ∈ bareTexts) :
    parseDecimal toInt128 text location = .ok ⟨0, 1, 0, false⟩ := by
  have hshape : ∃ negative sign body, text = sign ++ body ∧ SignText negative sign ∧
      (sign = [] → ∀ c ∈ body.head?, c ≠ '+' ∧ c ≠ '-') ∧ (body = [] ∨ body = ['.']) := by
    simp only [bareTexts, List.mem_cons, List.not_mem_nil, or_false] at h
    rcases h with rfl | rfl | rfl | rfl | rfl
    · exact ⟨_, ['+'], [], rfl, .plus, by simp, .inl rfl⟩
    · exact ⟨_, ['-'], [], rfl, .minus, by simp, .inl rfl⟩
    · exact ⟨_, [], ['.'], rfl, .none, by simp, .inr rfl⟩
    · exact ⟨_, ['+'], ['.'], rfl, .plus, by simp, .inr rfl⟩
    · exact ⟨_, ['-'], ['.'], rfl, .minus, by simp, .inr rfl⟩
  obtain ⟨negative, sign, body, rfl, hsign, hhead, hbody⟩ := hshape
  obtain ⟨-, -, hcount⟩ := findIdx?_sign hsign
  have hne : sign ++ body ≠ [] := by
    rintro hnil
    rw [hnil] at h
    exact absurd h (by decide)
  have hscan : Scannable (sign ++ body) body := by
    rcases hbody with rfl | rfl
    · exact ⟨by simp, by simp [hcount]⟩
    · exact ⟨by simp, by simp [hcount]⟩
  have hnil : Digits [] := by simp [Digits]
  have hmeasure : measure (sign ++ body) (positions (sign ++ body)) = .ok (1, 0, sign) := by
    rcases hbody with rfl | rfl
    · simpa [precisionOf, width] using measure_whole hsign hnil
    · simpa [precisionOf, width] using measure_point hsign hnil hnil
  have hatol : atol sign = .ok 0 := by
    rw [← List.append_nil sign, atol, readSigned_eq hsign hnil]
    cases negative <;> rfl
  rw [(parseDecimal_cases hkept hsign hhead hne).1 hscan, convert, hmeasure, ok_bind]
  dsimp only
  rw [if_pos (by decide), hatol]
  rfl

end Parser

/-! ### The two conditions -/

/-- A 128-bit conversion that reads a sign and digits. -/
def plainToInt128 (text : List Char) : Except (Stop PrestoSqlError) ℤ :=
  if |readSigned text| < 2 ^ 127 then .ok (readSigned text)
  else raise (semanticError ⟨1, 0⟩ text "overflow")

lemma converts_plainToInt128 : Converts plainToInt128 := by
  intro negative sign digits hsign hdigits hsome hlt
  have habs : |readSigned (sign ++ digits)| < 2 ^ 127 := by
    rw [readSigned_eq hsign hdigits, abs_signedNumeral]
    exact_mod_cast hlt
  rw [plainToInt128, if_pos habs, readSigned_eq hsign hdigits]
  rfl

/-- Zeros leave what the loop has found as it is. -/
lemma scan_zeros {location : NodeLocation} {text : List Char} {found : Positions} :
    ∀ (zeros : ℕ) {rest : List Char} {i : ℕ},
      text.drop i = List.replicate zeros '0' ++ rest →
      scan location text i found = scan location text (i + zeros) found
  | 0, _, _, _ => rfl
  | zeros + 1, rest, i, hdrop => by
    rw [List.replicate_succ, List.cons_append] at hdrop
    rw [scan, if_pos (lt_length_of_drop hdrop), readAt_of_drop hdrop, ok_bind,
      if_neg (by decide), if_neg (by decide), if_neg (fun h => h.2 rfl),
      scan_zeros zeros (drop_of_drop_cons hdrop), Nat.add_assoc, Nat.add_comm 1]

/-- Behind two to the power of 31 zeros a digit is not found: its position is kept in 32 bits. -/
lemma not_exact_zeros (toInt128 : List Char → Except (Stop PrestoSqlError) ℤ)
    (location : NodeLocation) :
    ¬ Exact toInt128 location (List.replicate (2 ^ 31) '0' ++ ['5']) := by
  obtain ⟨zeros, hzeros⟩ : ∃ zeros, zeros = 2 ^ 31 := ⟨_, rfl⟩
  rw [← hzeros]
  set text := List.replicate zeros '0' ++ ['5'] with htext
  have hlength : text.length = zeros + 1 := by simp [htext]
  have hdigits : Digits text := by
    intro c hc
    rcases List.mem_append.mp hc with hc | hc
    · rw [List.eq_of_mem_replicate hc]
      rfl
    · rw [List.mem_singleton.mp hc]
      rfl
  have hne : text ≠ [] := by simp [htext]
  have hsmall : ¬ TooPrecise text [] := by
    have hnumeral : numeral text = 5 := by
      rw [htext, numeral_append, numeral, Nat.ofDigitChars_replicate_zero, Nat.mul_zero,
        Nat.zero_mul, Nat.zero_add]
      rfl
    rintro (hlong | hbig)
    · simp at hlong
    · rw [List.append_nil, hnumeral] at hbig
      omega
  rintro ⟨hexact, -⟩
  obtain ⟨constant, hok, -⟩ :=
    (hexact false text [] (Decimal.whole .none hdigits hne)).2 hsmall
  have hdrop : text.drop (0 + zeros) = ['5'] := by simp [htext]
  have hscan : scan location text 0 ⟨-1, -1⟩ = .ok ⟨-1, -2147483648⟩ := by
    have hlast : toInt32 ((0 + zeros : ℕ) : ℤ) = -2147483648 := by
      rw [Nat.zero_add, hzeros]
      rfl
    have hstart : text.drop 0 = List.replicate zeros '0' ++ ['5'] := htext
    rw [scan_zeros zeros hstart, scan, if_pos (lt_length_of_drop hdrop),
      readAt_of_drop hdrop, ok_bind, if_neg (by decide), if_neg (by decide),
      if_pos ⟨rfl, by decide⟩, hlast, scan, if_neg (by omega)]
  have hhead : ∀ c ∈ text.head?, c ≠ '+' ∧ c ≠ '-' := by
    intro c hc
    have hdigit := hdigits c (List.mem_of_mem_head? hc)
    constructor <;> rintro rfl <;> exact absurd hdigit (by decide)
  have hparse := parseDecimal_eq toInt128 location SignText.none (fun _ => hhead) hne
  have hprecision : toSizeT ((text.length : ℤ) - -2147483648) = zeros + 1 + 2147483648 := by
    rw [hlength, show ((zeros + 1 : ℕ) : ℤ) - -2147483648 = ((zeros + 1 + 2147483648 : ℕ) : ℤ) by
      push_cast; ring, toSizeT_natCast]
  have hmeasure : measure text ⟨-1, -2147483648⟩ = .ok (zeros + 1 + 2147483648, 0, text) := by
    rw [measure, if_pos rfl, if_neg (by decide), hprecision]
  have hshortMax : kShortMaxPrecision = 18 := rfl
  have hlongMax : kLongMaxPrecision = 38 := rfl
  rw [List.nil_append, show positions (text.take ([] : List Char).length) = ⟨-1, -1⟩ from rfl,
    List.length_nil, hscan, ok_bind, convert, hmeasure, ok_bind] at hparse
  dsimp only at hparse
  rw [if_neg (by omega), if_neg (by omega), hok] at hparse
  cases hparse

end Verax.Literals
