import Mathlib.Data.List.Basic
import Mathlib.Data.Nat.Basic
import Mathlib.Tactic.Linarith

/-!
# Readers of a text

A reader walks a text by position and may raise an error. Two more things can stop it, and a correct
reader never meets them: an access past the end of what it reads, and an integer that leaves its
type. `Stop` keeps the three apart.

* `readAt`, `int64`: the accesses and the arithmetic that can go wrong.
* `Safely r Q`: `r` meets neither fault, and a value it returns satisfies `Q`; with its rules.
* `numeral`: the number written by decimal digits, and its bounds.
-/

namespace Verax.Lib.Reading

/-- What stops a reader. -/
inductive Stop (ε : Type)
  | pastEnd
  | overflow
  | raised (error : ε)
deriving DecidableEq

variable {ε α β : Type}

/-- Raises an error of the reader's own. -/
def raise (error : ε) : Except (Stop ε) α := .error (.raised error)

/-- The element at a position. -/
def readAt (text : List α) (pos : ℕ) : Except (Stop ε) α :=
  match text[pos]? with
  | some a => .ok a
  | none => .error .pastEnd

/-- A 64-bit signed integer. -/
def int64 (value : ℤ) : Except (Stop ε) ℤ :=
  if -9223372036854775808 ≤ value ∧ value ≤ 9223372036854775807 then .ok value
  else .error .overflow

/-! ### Positions and what is left -/

section Positions

variable {text rest : List α} {pos : ℕ} {a : α}

lemma lt_length_of_drop (h : text.drop pos = a :: rest) : pos < text.length := by
  by_contra hge
  rw [List.drop_eq_nil_of_le (by omega)] at h
  cases h

lemma readAt_of_drop (h : text.drop pos = a :: rest) :
    readAt text pos = (.ok a : Except (Stop ε) α) := by
  have hget : text[pos]? = some a := by rw [← List.head?_drop, h]; rfl
  simp only [readAt, hget]

lemma drop_of_drop_cons (h : text.drop pos = a :: rest) : text.drop (pos + 1) = rest := by
  rw [← List.drop_drop, h]
  rfl

lemma drop_of_drop_append {first : List α} (h : text.drop pos = first ++ rest) :
    text.drop (pos + first.length) = rest := by
  rw [← List.drop_drop, h, List.drop_left]

lemma exists_drop_cons (h : pos < text.length) : ∃ a rest, text.drop pos = a :: rest :=
  ⟨_, _, List.drop_eq_getElem_cons h⟩

lemma length_le_of_drop_nil (h : text.drop pos = []) : text.length ≤ pos :=
  List.drop_eq_nil_iff.mp h

end Positions

lemma int64_eq {value : ℤ} (hlow : -9223372036854775808 ≤ value)
    (hhigh : value ≤ 9223372036854775807) :
    int64 value = (.ok value : Except (Stop ε) ℤ) := if_pos ⟨hlow, hhigh⟩

/-! ### Sequencing -/

@[simp] lemma ok_bind (a : α) (f : α → Except (Stop ε) β) : (Except.ok a >>= f) = f a := rfl

@[simp] lemma raise_bind (error : ε) (f : α → Except (Stop ε) β) :
    (raise error >>= f) = raise error := rfl

/-! ### Readers without faults -/

/-- The reader meets no fault, and a value it returns satisfies `Q`. -/
def Safely (r : Except (Stop ε) α) (Q : α → Prop) : Prop :=
  match r with
  | .ok a => Q a
  | .error (.raised _) => True
  | .error .pastEnd | .error .overflow => False

variable {r : Except (Stop ε) α} {f : α → Except (Stop ε) β} {Q Q' : α → Prop} {R : β → Prop}
  {a : α}

lemma Safely.ok (h : Q a) : Safely (.ok a : Except (Stop ε) α) Q := h

lemma Safely.raise (error : ε) : Safely (raise error : Except (Stop ε) α) Q := trivial

lemma Safely.bind (hr : Safely r Q) (hf : ∀ a, Q a → Safely (f a) R) : Safely (r >>= f) R := by
  match r, hr with
  | .ok a, hr => exact hf a hr
  | .error (.raised _), _ => trivial

lemma Safely.imp (hr : Safely r Q) (h : ∀ a, Q a → Q' a) : Safely r Q' := by
  match r, hr with
  | .ok a, hr => exact h a hr
  | .error (.raised _), _ => trivial

lemma Safely.of_eq (hr : r = .ok a) (h : Q a) : Safely r Q := hr ▸ h

/-- What is known of a value that was returned. -/
lemma Safely.post (hr : Safely r Q) (h : r = .ok a) : Q a := by
  subst h
  exact hr

lemma Safely.ne_pastEnd (hr : Safely r Q) : r ≠ .error .pastEnd := by
  rintro rfl
  exact hr

lemma Safely.ne_overflow (hr : Safely r Q) : r ≠ .error .overflow := by
  rintro rfl
  exact hr

/-! ### Decimal digits -/

/-- Source: the comparison with `'0'` and `'9'` that the readers share. -/
def isDigit (character : Char) : Bool := '0' ≤ character && character ≤ '9'

/-- The digit a character stands for. -/
def digit (character : Char) : ℕ := character.toNat - '0'.toNat

/-- The number written by decimal digits. -/
def numeral (digits : List Char) : ℕ := Nat.ofDigitChars 10 digits 0

/-- Only decimal digits. -/
def Digits (digits : List Char) : Prop := ∀ c ∈ digits, isDigit c = true

lemma Digits.cons {c : Char} {digits : List Char} (h : Digits (c :: digits)) :
    isDigit c = true ∧ Digits digits :=
  ⟨h c (by simp), fun d hd => h d (by simp [hd])⟩

lemma Digits.append {first rest : List Char} (hfirst : Digits first) (hrest : Digits rest) :
    Digits (first ++ rest) := fun c hc =>
  (List.mem_append.mp hc).elim (hfirst c) (hrest c)

lemma digit_lt {c : Char} (h : isDigit c = true) : digit c < 10 := by
  simp only [isDigit, Bool.and_eq_true, decide_eq_true_eq, Char.le_def, UInt32.le_iff_toNat_le] at h
  have h9 : ('9' : Char).val.toNat = 57 := rfl
  have h0 : ('0' : Char).toNat = 48 := rfl
  have hc : c.toNat = c.val.toNat := rfl
  rw [digit, h0, hc]
  omega

lemma digit_cast {c : Char} (h : isDigit c = true) :
    ((c.toNat : ℤ) - ('0'.toNat : ℤ)) = digit c := by
  simp only [isDigit, Bool.and_eq_true, decide_eq_true_eq, Char.le_def, UInt32.le_iff_toNat_le] at h
  have h0 : ('0' : Char).val.toNat = 48 := rfl
  have h0' : ('0' : Char).toNat = 48 := rfl
  have hc : c.toNat = c.val.toNat := rfl
  rw [digit, h0', hc]
  omega

lemma ofDigitChars_lt {digits : List Char} (h : Digits digits) (start : ℕ) :
    Nat.ofDigitChars 10 digits start < (start + 1) * 10 ^ digits.length := by
  induction digits generalizing start with
  | nil => simp
  | cons c digits ih =>
    have hc := digit_lt h.cons.1
    have hrest := ih h.cons.2 (10 * start + digit c)
    rw [Nat.ofDigitChars_cons]
    calc _ < (10 * start + digit c + 1) * 10 ^ digits.length := hrest
      _ ≤ (start + 1) * 10 * 10 ^ digits.length := Nat.mul_le_mul_right _ (by omega)
      _ = (start + 1) * 10 ^ (c :: digits).length := by
        rw [List.length_cons, Nat.pow_succ, Nat.mul_assoc, Nat.mul_comm 10]

lemma numeral_lt {digits : List Char} (h : Digits digits) :
    numeral digits < 10 ^ digits.length := by
  simpa [numeral] using ofDigitChars_lt h 0

lemma numeral_append (first rest : List Char) :
    numeral (first ++ rest) = numeral first * 10 ^ rest.length + numeral rest := by
  rw [numeral, Nat.ofDigitChars_append, Nat.ofDigitChars_eq_ofDigitChars_zero, Nat.mul_comm]
  rfl

lemma numeral_cons (c : Char) (rest : List Char) :
    numeral (c :: rest) = digit c * 10 ^ rest.length + numeral rest := by
  rw [← List.singleton_append, numeral_append]
  simp [numeral, Nat.ofDigitChars_cons, digit]

/-- A digit other than zero. -/
def isNonZero (character : Char) : Bool := isDigit character && character != '0'

lemma digit_pos {c : Char} (h : isNonZero c = true) : 0 < digit c := by
  rw [isNonZero, Bool.and_eq_true, bne_iff_ne] at h
  have hne : c.toNat ≠ '0'.toNat := fun heq => h.2 (Char.toNat_inj.mp heq)
  have hcast := digit_cast h.1
  omega

/-- Without a digit other than zero, the number is zero. -/
lemma numeral_eq_zero {digits : List Char} (h : Digits digits)
    (hzero : digits.findIdx? isNonZero = none) : numeral digits = 0 := by
  induction digits with
  | nil => rfl
  | cons c digits ih =>
    rw [List.findIdx?_cons] at hzero
    have hc : c = '0' := by
      by_contra hne
      have hnonzero : isNonZero c = true := by simp [isNonZero, h.cons.1, hne]
      rw [hnonzero] at hzero
      cases hzero
    rw [hc] at hzero
    rw [numeral_cons, hc, ih h.cons.2 (by simpa [isNonZero] using hzero)]
    simp [digit]

/-- The digits from the first one other than zero bound the number. -/
lemma numeral_bounds {digits : List Char} (h : Digits digits) {first : ℕ}
    (hfirst : digits.findIdx? isNonZero = some first) :
    first < digits.length ∧ 10 ^ (digits.length - first - 1) ≤ numeral digits ∧
      numeral digits < 10 ^ (digits.length - first) := by
  induction digits generalizing first with
  | nil => cases hfirst
  | cons c digits ih =>
    rw [List.findIdx?_cons] at hfirst
    by_cases hc : isNonZero c = true
    · rw [if_pos hc] at hfirst
      obtain rfl := Option.some.inj hfirst
      have hdigit := digit_pos hc
      refine ⟨by simp, ?_, by simpa using numeral_lt h⟩
      rw [numeral_cons]
      exact (Nat.le_mul_of_pos_left _ hdigit).trans (Nat.le_add_right _ _)
    · rw [if_neg hc] at hfirst
      obtain ⟨first, hfound, rfl⟩ := Option.map_eq_some_iff.mp hfirst
      obtain ⟨hlt, hlow, hhigh⟩ := ih h.cons.2 hfound
      have hzero : c = '0' := by simpa [isNonZero, h.cons.1] using hc
      have hlength : (c :: digits).length - (first + 1) = digits.length - first := by
        simp
      rw [numeral_cons, hlength, hzero]
      refine ⟨by simpa using hlt, ?_, ?_⟩ <;> simpa [digit]

end Verax.Lib.Reading
